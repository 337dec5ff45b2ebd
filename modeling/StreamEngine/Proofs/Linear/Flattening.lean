import StreamEngine.Proofs.Linear.Decoding

/-!
# Flat walks

A walk without gaps has no use for its loops: every stride continues what the levels below it have walked,
and so each element stands one innermost stride behind the one before it, modulo 2^64. The cumulative trips
may be anything. A zero trip passes its level over, and a product that wraps around is still the stride.

* `Linear.exists_ends` — the innermost stride and the start of a list;
* `Linear.flat_of_isContinuous` — a walk without gaps, and the flat form of its pattern.
-/

namespace StreamEngine
namespace Linear

/-- A list of at least two words begins with the innermost stride and ends in the start. -/
theorem exists_ends {words : List UInt64} (hlen : 2 ≤ words.length) :
    ∃ stride between start, words = stride :: between ++ [start] := by
  rcases words with _ | ⟨stride, rest⟩
  · cases hlen
  rcases List.eq_nil_or_concat rest with rfl | ⟨between, start, rfl⟩
  · exact absurd hlen (Nat.lt_irrefl 1)
  · exact ⟨stride, between, start, by rw [List.concat_eq_append, List.cons_append]⟩

theorem bounds_of_isContinuous {ps : Formal} {words : List UInt64} {elemSize : Nat}
    (hwords : ps.words? = some words) (h : isContinuous ps elemSize = true) :
    2 ≤ words.length ∧ (innerStrideOf words).toNat ≤ elemSize := by
  rw [isContinuous, invariantWords_eq hwords] at h
  simp only [Bool.and_eq_true, decide_eq_true_eq] at h
  exact h.1

/-- A walk without gaps is flat. No step is longer than an element, and element `idx` stands `idx` innermost
strides behind the start, modulo 2^64. Where the list is decoded, the pattern has a flat form with as many
elements, and the two have the same addresses. -/
theorem flat_of_isContinuous {ps : Formal} {elemSize : Nat} (h : isContinuous ps elemSize = true) :
    ∃ (stride : UInt64) (between : List UInt64) (start : UInt64),
      ps.words? = some (stride :: between ++ [start]) ∧ stride.toNat ≤ elemSize ∧
      (∀ idx, address? (stride :: between ++ [start]) idx =
        .ok (start + stride * UInt64.ofNat idx)) ∧
      ∀ p, LinearPattern.decode ps = .ok p →
        ∃ flat, p.flatten? = some flat ∧ flat.totalTrip = p.totalTrip ∧
          ∀ idx, address? p.words idx = .ok (start + stride * UInt64.ofNat idx) ∧
            address? flat.words idx = .ok (start + stride * UInt64.ofNat idx) := by
  rcases exists_words_of_isContinuous h with ⟨words, hwords⟩
  rcases bounds_of_isContinuous hwords h with ⟨hlen, hstride⟩
  have haddress := address_of_isContinuous hwords h
  rcases exists_ends hlen with ⟨stride, between, start, rfl⟩
  have hstart : startOf (stride :: between ++ [start]) = start := List.getLastD_concat
  have hinner : innerStrideOf (stride :: between ++ [start]) = stride := rfl
  rw [hstart, hinner] at haddress
  have hwalk : ∀ idx, address? (stride :: between ++ [start]) idx =
      .ok (start + stride * UInt64.ofNat idx) := by
    intro idx
    rw [address?, if_neg (Nat.not_lt.2 hlen), haddress]
  refine ⟨stride, between, start, hwords, hstride, hwalk, fun p hp => ?_⟩
  have hflat := LinearPattern.flatten?_of_decode hwords hp
  rcases LinearPattern.decode_eq_ok hwords hp with ⟨hodd, _, hp'⟩
  rw [hstart, hinner] at hflat
  refine ⟨_, hflat, rfl, fun idx => ⟨?_, ?_⟩⟩
  · rw [hp', LinearPattern.words_decoded hodd, hwalk]
  · -- the only loop of the flat form goes on at the stride, whatever its trip
    exact congrArg Except.ok (LinearPattern.addr_oneDim start stride p.totalTrip idx)

/-- A nest with a zero trip and a trip that falls, whose outermost stride continues what is below it only
modulo 2^64. -/
theorem flat_of_isContinuous_wrapping :
    ∃ p flat, LinearPattern.decode
        (Formal.ofWords [8, 4, 32, 0, 0, 0x2000000000000001, 8, 0x2000000000000002, 0x1000]) = .ok p ∧
      p.flatten? = some flat ∧ address? p.words 5 = .ok 0x1028 ∧ address? flat.words 5 = .ok 0x1028 := by
  have hcont : isContinuous
      (Formal.ofWords [8, 4, 32, 0, 0, 0x2000000000000001, 8, 0x2000000000000002, 0x1000]) 8 = true := by
    decide
  rcases flat_of_isContinuous hcont with ⟨stride, between, start, hwords, _, _, hflat⟩
  rw [Formal.words?_ofWords] at hwords
  have hstride := congrArg innerStrideOf (Option.some.inj hwords)
  have hstart : 0x1000 = start := (congrArg startOf (Option.some.inj hwords)).trans List.getLastD_concat
  subst hstride hstart
  rcases hflat _ rfl with ⟨flat, hform, _, haddress⟩
  exact ⟨_, flat, rfl, hform, (haddress 5).1, (haddress 5).2⟩

end Linear
end StreamEngine
