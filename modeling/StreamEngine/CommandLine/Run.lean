import StreamEngine.CommandLine.Job
import StreamEngine.CommandLine.Request
import StreamEngine.Linear.Describe
import StreamEngine.Options.Document
import StreamEngine.Slicer

/-!
# Running a command line

A run is a function of the arguments and of the files they name. It ends with an exit code, what is
printed, and lines of messages.

| code | meaning |
|---|---|
| 0 | done |
| 1 | the input was understood and refused |
| 2 | wrong usage, or a file that cannot be read |
| 101 | a fault; what was printed before it stands |
-/

namespace StreamEngine
namespace CommandLine

/-- What a run leaves behind. -/
structure Report where
  code : Nat
  out : String := ""
  messages : List String := []
  deriving DecidableEq, Repr

/-- The text of a file, if there is one. -/
abbrev Files := String → Option String

def usage : String :=
  "usage: sfe [--options FILE] [--verbose] (addr | slice | pum) ..."

/-- A message of the program. -/
def say (text : String) : String :=
  s!"sfe: {text}"

/-- The message of a reported error. -/
def sayError {ε : Type} [Reported ε] (e : ε) : String :=
  say (diagnosticOf e).text

/-- A run that ends early: wrong usage, or a file that cannot be used. -/
def stopUsage (message : String) : Report :=
  { code := 2, messages := [message] }

/-! ## Addresses and slices -/

/-- The options of a file, or the ones that hold without it. -/
def loadOptions (files : Files) : Option String → Except Report Options
  | none => .ok {}
  | some path =>
    match files path with
    | none => .error (stopUsage (say s!"{path}: cannot read options"))
    | some text =>
      match Options.parse text with
      | .ok o => .ok o
      | .error e => .error (stopUsage (say s!"{path}: {(diagnosticOf e).text}"))

/-- The messages about parameters that describe a pattern. -/
def checkParams (words : List UInt64) (verbose : Bool) : Except Report (List String) :=
  if words.length < 2 then
    .error (stopUsage
      (say s!"error: a linear pattern needs at least 2 params, got {words.length}"))
  else
    match Linear.describe (Formal.ofWords words) with
    | .ok text => .ok (if verbose then [say s!"pattern {text}"] else [])
    | .error e => .error { code := 1, messages := [sayError e] }

/-- The first `count` addresses of a pattern, one a line behind its index. -/
def addressLines (words : List UInt64) (count : Nat) : String :=
  String.join ((List.range count).map fun i =>
    s!"{i} {Text.hexWord (Linear.address words i)}\n")

/-- Lines, and the fault that ended them if there was one. -/
structure Listing where
  lines : List String := []
  fault : Option Fault := none

/-- The slicer has come to the end of a stream of known length. -/
def atEnd (s : Slicer) : Except Fault (Bool × Slicer) :=
  match s.totalTrip with
  | none => .ok (false, s)
  | some total => do
    let (front, s) ← s.peek
    return (total ≤ front.lhs, s)

/-- The next slices of a stream, at most `count`, up to its end. -/
def sliceLines (s : Slicer) : Nat → Listing
  | 0 => {}
  | count + 1 =>
    match atEnd s with
    | .error f => { fault := some f }
    | .ok (true, _) => {}
    | .ok (false, s) =>
      match s.next with
      | .error f => { fault := some f }
      | .ok (front, s) =>
        let rest := sliceLines s count
        { rest with lines := s!"{front.text}\n" :: rest.lines }

/-- The message of a fault. -/
def sayFault (f : Fault) : String :=
  let text := f.message?.getD "arithmetic"
  say s!"fault: {text}"

/-- The strand that slices are listed for. -/
def listedStrand : StrandId :=
  .whole { core := 0, staticId := 0, instanceNo := 1 }

/-- Lists slices with the line size and merging of the options, unless the request has its own. -/
def runSlices (o : Options) (r : SliceRequest) (messages : List String) : Report :=
  let line := r.lineSize.getD o.lineSize
  if !isPowerOfTwo line || r.elemSize == 0 then
    stopUsage (say "error: line size must be a power of two and element size non-zero")
  else
    let slicer : Slicer :=
      { strand := listedStrand, formal := Formal.ofWords r.words, generator := .linear,
        elemSize := r.elemSize, totalTrip := r.totalTrip, lineSize := line,
        coalesce := o.coalesce && r.coalesce }
    let listing := sliceLines slicer r.count
    let out := String.join listing.lines
    match listing.fault with
    | none => { code := 0, out, messages }
    | some f => { code := 101, out, messages := messages ++ [sayFault f] }

/-! ## Jobs -/

/-- A job as read from a file, with hardware that can be used. -/
def loadJob (files : Files) (path : String) : Except Report Job :=
  match files path with
  | none => .error (stopUsage (say s!"error: {path}: cannot read job"))
  | some text =>
    match Job.parse? text with
    | none => .error (stopUsage (say s!"error: {path}: not a job"))
    | some job =>
      match job.hardware.checked with
      | .ok _ => .ok job
      | .error e => .error (stopUsage (say s!"{path}: {(diagnosticOf e).text}"))

/-- The fingerprint of the hardware. -/
def hardwareMessage (h : Hardware) : String :=
  say s!"hw {Json.shortForm h.toJson.fingerprint}"

/-- Compiles a job and prints its commands. -/
def runJob (job : Job) (verbose : Bool) : Report :=
  let before := if verbose then [hardwareMessage job.hardware] else []
  match job.commands with
  | .error e => { code := 1, messages := before ++ [sayError e] }
  | .ok cs =>
    let after := if verbose then [say s!"{cs.length} commands"] else []
    { code := 0, out := Command.listing cs, messages := before ++ after }

/-! ## The whole run -/

/-- Either side of a run that may have ended early. -/
def Report.ofExcept : Except Report Report → Report
  | .ok r => r
  | .error r => r

/-- Does what is asked for. -/
def runRequest (files : Files) (r : Request) : Report :=
  Report.ofExcept do
    let options ← loadOptions files r.options
    match r.action with
    | .addresses words count =>
      let messages ← checkParams words r.verbose
      return { code := 0, out := addressLines words count, messages }
    | .slices s =>
      let messages ← checkParams s.words r.verbose
      return runSlices options s messages
    | .job path =>
      let job ← loadJob files path
      return runJob job r.verbose

/-- Runs a command line. -/
def run (files : Files) (args : List String) : Report :=
  match request? args with
  | none => stopUsage usage
  | some r => runRequest files r

/-- The files that a command line may ask for. -/
def filesOf (args : List String) : List String :=
  match request? args with
  | none => []
  | some r =>
    let job :=
      match r.action with
      | .job path => [path]
      | _ => []
    r.options.toList ++ job

end CommandLine
end StreamEngine
