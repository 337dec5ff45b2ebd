/-!
# Arithmetic

Powers, sums and products of numbers are those of the core library in every module, whether or not the
module also sees a theory of algebraic structures, which brings its own. A power with a fixed exponent is
read through `instPowNat`, and an empty sum or product through the instances below.
-/

attribute [default_instance 20000] instPowNat

namespace StreamEngine

instance (priority := 20000) natOne : One Nat := ⟨1⟩

instance (priority := 20000) intOne : One Int := ⟨1⟩

instance (priority := 20000) intZero : Zero Int := ⟨0⟩

instance (priority := 20000) wordZero : Zero UInt64 := ⟨0⟩

end StreamEngine
