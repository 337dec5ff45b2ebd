import StreamEngine.Graph.Basic
import StreamEngine.Linear.Analysis
import StreamEngine.Linear.Split

/-!
# Splitting a stream into strands

A linear stream is replaced by one configuration for each strand. A walk without gaps is split as one
flat loop, whatever its nest; any other is split along its outermost loop, by dealing runs only.

- `Graph.canSplit` : whether a group of streams may be split;
- `Graph.splitIntoStrands` : enters the strands' configurations. A refusal leaves the graph as it was.
-/

namespace StreamEngine

/-- A division of a decoded pattern: its flat form and the patterns of the strands in order. -/
structure StrandPatterns where
  flat : LinearPattern
  strands : List LinearPattern
  deriving DecidableEq, Repr

namespace Config

/-- The stream may be split: its length is known, it feeds no indirect stream, it is linear without
gaps, and it floats from its first element to a cache. -/
def canSplit (c : Config) : Bool :=
  c.totalTrip.isSome &&
    !(c.depEdges.any fun e => e.kind == .usedBy) &&
    c.generator.isLinear &&
    Linear.isContinuous c.formal c.elemSize &&
    !c.floatPlan.isFloatedToMem &&
    c.floatPlan.firstElem? == some 0

/-- The pattern of strand `s` out of a nest and its flat form. An empty range is a loop of no steps. -/
def strandPattern (nested flat : LinearPattern) (continuous : Bool) (split : StrandSplit)
    (s : Nat) : Except (Failure PatternError) LinearPattern :=
  match split with
  | .interleave i =>
    if continuous then flat.splitRuns i.run i.strands s
    else nested.splitDim (nested.dims - 1) i.run s i.strands
  | .ranges bounds =>
    match bounds[s]?, bounds[s + 1]? with
    | some lo, some hi =>
      if lo = hi then .ok { flat with levels := flat.levels.map fun l => { l with trip := 0 } }
      else Failure.ofRefusal (flat.splitRange lo hi)
    | _, _ => .error (.fault .bounds)

/-- The patterns of all strands of a stream. -/
def strandPatterns (c : Config) (split : StrandSplit) :
    Except (Failure PatternError) StrandPatterns := do
  let nested ← Failure.ofRefusal (LinearPattern.decode c.formal)
  let total := split.totalStrands
  let refuse (reason : SplitRefusal) : Failure PatternError :=
    .refused (.unsupportedSplit nested reason)
  if total < 2 then throw (refuse (.tooFewStrands total))
  let continuous := Linear.isContinuous c.formal c.elemSize
  if !continuous then
    if let .ranges _ := split then throw (refuse .rangeOfGaps)
  match nested.flatten? with
  | none => throw (.fault .bounds)
  | some flat =>
    let strands ← (List.range total).mapM (strandPattern nested flat continuous split)
    return { flat, strands }

/-- The configuration of strand `s` of a stream with key `parent`. -/
def strand (c : Config) (parent : ConfigId) (split : StrandSplit) (s trip : Nat)
    (pattern : LinearPattern) : Config :=
  { c with
    strandIdx := s
    totalStrands := split.totalStrands
    parent := some parent
    split := some split
    totalTrip := some trip
    formal := pattern.toFormal
    refs := 0
    ended := false }

end Config

namespace Graph

/-- Every configuration of the group may be split. -/
def canSplit (g : Graph) (cs : List ConfigId) : Except Fault Bool :=
  cs.allM fun c => do
    let config ← g.get c
    return config.canSplit

/-- Enters the configurations of the strands from `s` on. -/
def configureStrands (g : Graph) (c : Config) (parent : ConfigId) (split : StrandSplit)
    (trip s : Nat) : List LinearPattern → Except Fault (List ConfigId × Graph)
  | [] => .ok ([], g)
  | p :: rest => do
    let own ← split.tripCount trip s
    let (id, g) ← g.configure (c.strand parent split s own p)
    let (ids, g) ← g.configureStrands c parent split trip (s + 1) rest
    return (id :: ids, g)

/-- Splits a stream into strands and gives the keys of their configurations. -/
def splitIntoStrands (g : Graph) (c : ConfigId) (split : StrandSplit) :
    Except Fault (Except PatternError (List ConfigId) × Graph) := do
  let config ← g.get c
  match config.strandPatterns split with
  | .error (.fault f) => throw f
  | .error (.refused e) => return (.error e, g)
  | .ok patterns =>
    let g := g.put c
      (some { config with split := some split, totalStrands := split.totalStrands })
    let (ids, g) ← g.configureStrands config c split patterns.flat.totalTrip 0 patterns.strands
    return (.ok ids, g)

end Graph
end StreamEngine
