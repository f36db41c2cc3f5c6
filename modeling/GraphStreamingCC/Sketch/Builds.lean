/-
The two builds of `Sketch::update` (src/sketch.cpp, `L0_SAMPLING` defined or not).

With `L0_SAMPLING` an index goes into all buckets of a column up to its depth, without it into the one at its depth. So
an index is alone in a bucket of the first build if it is the only deepest one of its column (`alone_cube_iff`), and in
one of the second if no other has its depth (`alone_support_iff`), which is weaker. `builds_agree`: after one program on
the sketches of both builds, of the same shape and hash (their default shapes differ), both report the same emptiness,
and every index that a sample of the first can find is found by that sample of the second; not the other way round
(`builds_agree_two`).
-/
import GraphStreamingCC.Sketch.Exhaustive
import GraphStreamingCC.Sketch.Operations

namespace GraphStreamingCC

/-- the same sizes, seed and hash in the build with or without `L0_SAMPLING` -/
def Params.build (P : Params) (l0Sampling : Bool) : Params := { P with l0Sampling := l0Sampling }

namespace Sketch

open Parity Runs

variable {P : Params} {S : Finset (BitVec 64)} {s : Sketch P} {k c d : ℕ} {x : BitVec 64}

/-! ## Indices that are alone -/

theorem lands_cube : Lands (P.build true) x c d ↔ d ≤ depth P x c ∧ depth P x c < P.bktPerCol :=
  iff_of_eq (if_pos rfl)

theorem lands_support : Lands (P.build false) x c d ↔ depth P x c = d :=
  iff_of_eq (if_neg Bool.false_ne_true)

theorem filter_lands_eq_singleton : (S.filter fun y => Lands P y c d) = {x} ↔
    x ∈ S ∧ Lands P x c d ∧ ∀ y ∈ S, y ≠ x → ¬ Lands P y c d := by
  rw [Finset.eq_singleton_iff_unique_mem, Finset.mem_filter, and_assoc]
  refine and_congr_right fun _ => and_congr_right fun _ => ?_
  constructor
  · intro h y hy hne hl
    exact hne (h y (Finset.mem_filter.2 ⟨hy, hl⟩))
  · intro h y hy
    obtain ⟨hyS, hl⟩ := Finset.mem_filter.1 hy
    by_contra hne
    exact h y hyS hne hl

/-- alone with `L0_SAMPLING`: deeper than the others of some column -/
theorem alone_cube_iff : Alone (P.build true) S k x ↔ x ∈ S ∧ ∃ c ∈ columns P k, depth P x c < P.bktPerCol ∧
    ∀ y ∈ S, y ≠ x → depth P y c < P.bktPerCol → depth P y c < depth P x c := by
  constructor
  · intro h
    obtain ⟨c, hc, d, -, hone⟩ := h
    obtain ⟨hx, hl, hother⟩ := filter_lands_eq_singleton.1 hone
    obtain ⟨hd, hlt⟩ := lands_cube.1 hl
    refine ⟨hx, c, hc, hlt, fun y hy hne hylt => ?_⟩
    by_contra hle
    -- y would lie in the bucket of x
    exact hother y hy hne (lands_cube.2 ⟨by omega, hylt⟩)
  · intro h
    obtain ⟨hx, c, hc, hlt, hdeepest⟩ := h
    refine ⟨c, hc, depth P x c, hlt, filter_lands_eq_singleton.2 ⟨hx, lands_cube.2 ⟨le_rfl, hlt⟩, ?_⟩⟩
    intro y hy hne hl
    obtain ⟨hle, hylt⟩ := lands_cube.1 hl
    exact absurd (hdeepest y hy hne hylt) (not_lt.2 hle)

/-- alone without `L0_SAMPLING`: the only one of its depth in some column -/
theorem alone_support_iff : Alone (P.build false) S k x ↔ x ∈ S ∧ ∃ c ∈ columns P k, depth P x c < P.bktPerCol ∧
    ∀ y ∈ S, y ≠ x → depth P y c ≠ depth P x c := by
  constructor
  · intro h
    obtain ⟨c, hc, d, hd, hone⟩ := h
    obtain ⟨hx, hl, hother⟩ := filter_lands_eq_singleton.1 hone
    obtain rfl := lands_support.1 hl
    exact ⟨hx, c, hc, hd, fun y hy hne he => hother y hy hne (lands_support.2 he)⟩
  · intro h
    obtain ⟨hx, c, hc, hlt, honly⟩ := h
    refine ⟨c, hc, depth P x c, hlt, filter_lands_eq_singleton.2 ⟨hx, lands_support.2 rfl, ?_⟩⟩
    exact fun y hy hne hl => honly y hy hne (lands_support.1 hl)

theorem alone_support_of_cube (h : Alone (P.build true) S k x) : Alone (P.build false) S k x := by
  obtain ⟨hx, c, hc, hlt, hdeepest⟩ := alone_cube_iff.1 h
  refine alone_support_iff.2 ⟨hx, c, hc, hlt, fun y hy hne he => ?_⟩
  have := hdeepest y hy hne (he ▸ hlt)
  omega

/-! ## Samples -/

theorem sampleAt_result_zero (hS : Encodes s.buckets S) (hc : NoFalseChecksum P S) (hk : k < P.numSamples) :
    (s.sampleAt k).result = .zero ↔ S = ∅ := by
  rcases sampleAt_cases hS (hc.sample k) hk with ⟨h, he⟩ | ⟨h, -, x, -, he⟩ | ⟨h, -, he⟩
  · exact iff_of_true (by rw [he]) h
  · exact iff_of_false (by rw [he]; simp) h
  · exact iff_of_false (by rw [he]; simp) h

/-- a sample is GOOD if and only if the exhaustive one has an index -/
theorem sampleAt_result_good (s : Sketch P) (k : ℕ) :
    (s.sampleAt k).result = .good ↔ (s.exhaustiveSampleAt k).idxs.Nonempty := by
  obtain ⟨hresult, hidx, hnone⟩ := sampleAt_agrees s k
  constructor
  · intro h
    exact ⟨_, hidx h⟩
  · intro h
    by_contra hne
    exact h.ne_empty (hnone (hresult ▸ hne))

variable {α : Type*} [DecidableEq α]

/-- **The default build finds what the `L0_SAMPLING` build finds.** Let one program be executed on zeroed sketches of
both builds, which share the sizes, the seed and the hash, and let no subset of the indices that sketch i was left with
give a false checksum. Then each sample of sketch i is ZERO in both builds or in none. What the exhaustive sample of the
`L0_SAMPLING` build collects, that of the default build collects too, and where a sample of the first is GOOD that of
the second is. If more than one index is left, the first build collects those that are deeper than all others in some
column of the sample, and the second those that have their depth for themselves in one. -/
theorem builds_agree {ops : List (Op α)} {cube : α → Sketch (P.build true)} {support : α → Sketch (P.build false)}
    (hcube : exec step (fun _ => empty (P.build true)) ops = some cube)
    (hsupport : exec step (fun _ => empty (P.build false)) ops = some support) (i : α)
    (hc : NoFalseChecksum P (oddSet (occurrences ops i))) (hk : k < P.numSamples) :
    (((cube i).sampleAt k).result = .zero ↔ ((support i).sampleAt k).result = .zero) ∧
    (((cube i).sampleAt k).result = .good → ((support i).sampleAt k).result = .good) ∧
    ((cube i).exhaustiveSampleAt k).idxs ⊆ ((support i).exhaustiveSampleAt k).idxs ∧
    ((oddSet (occurrences ops i)).card ≠ 1 → ∀ x ∈ oddSet (occurrences ops i),
      (x ∈ ((cube i).exhaustiveSampleAt k).idxs ↔ ∃ c ∈ columns P k, depth P x c < P.bktPerCol ∧
        ∀ y ∈ oddSet (occurrences ops i), y ≠ x → depth P y c < P.bktPerCol → depth P y c < depth P x c) ∧
      (x ∈ ((support i).exhaustiveSampleAt k).idxs ↔ ∃ c ∈ columns P k, depth P x c < P.bktPerCol ∧
        ∀ y ∈ oddSet (occurrences ops i), y ≠ x → depth P y c ≠ depth P x c)) := by
  have hS₁ := encodes_iff.2 (exec_encode hcube i)
  have hS₀ := encodes_iff.2 (exec_encode hsupport i)
  have hmem₁ := mem_exhaustiveSampleAt (k := k) hS₁ hc hk
  have hmem₀ := mem_exhaustiveSampleAt (k := k) hS₀ hc hk
  have hsub : ((cube i).exhaustiveSampleAt k).idxs ⊆ ((support i).exhaustiveSampleAt k).idxs := by
    intro x hx
    obtain ⟨hxS, h⟩ := (hmem₁ x).1 hx
    exact (hmem₀ x).2 ⟨hxS, h.imp_right alone_support_of_cube⟩
  refine ⟨?_, ?_, hsub, fun hcard x hx => ⟨?_, ?_⟩⟩
  · rw [sampleAt_result_zero hS₁ hc hk, sampleAt_result_zero hS₀ hc hk]
  · rw [sampleAt_result_good, sampleAt_result_good]
    exact fun h => h.mono hsub
  · rw [hmem₁, or_iff_right hcard, alone_cube_iff, and_iff_right hx, and_iff_right hx]
  · rw [hmem₀, or_iff_right hcard, alone_support_iff, and_iff_right hx, and_iff_right hx]

/-- both indices are put in -/
def twoUpdates : List (Op Unit) := [.update () 1, .update () 2]

/-- index 2 has depth 0 in column 0, where index 1 is deeper: only the default build finds it in sample 0 -/
theorem builds_agree_two : ∃ (cube : Unit → Sketch (twoSamples.build true)) (support : Unit → Sketch (twoSamples.build false)),
    exec step (fun _ => empty (twoSamples.build true)) twoUpdates = some cube ∧
    exec step (fun _ => empty (twoSamples.build false)) twoUpdates = some support ∧
    2 ∈ ((support ()).exhaustiveSampleAt 0).idxs ∧ 2 ∉ ((cube ()).exhaustiveSampleAt 0).idxs := by
  obtain ⟨cube, hcube⟩ : ∃ s, exec step (fun _ => empty (twoSamples.build true)) twoUpdates = some s := ⟨_, rfl⟩
  obtain ⟨support, hsupport⟩ : ∃ s, exec step (fun _ => empty (twoSamples.build false)) twoUpdates = some s := ⟨_, rfl⟩
  have hodd : oddSet (occurrences twoUpdates ()) = {1, 2} := by decide +kernel
  have hc : NoFalseChecksum twoSamples (oddSet (occurrences twoUpdates ())) := hodd ▸ twoSamples_noFalseChecksum
  obtain ⟨-, -, -, h⟩ := builds_agree hcube hsupport () hc (by decide : 0 < twoSamples.numSamples)
  rw [hodd] at h
  obtain ⟨hmem₁, hmem₀⟩ := h (by decide) 2 (by decide)
  have hdepth₁ : depth twoSamples 1 0 = 3 := by decide +kernel
  have hdepth₂ : depth twoSamples 2 0 = 0 := by decide +kernel
  refine ⟨cube, support, hcube, hsupport, hmem₀.2 ⟨0, by decide, by rw [hdepth₂]; decide, ?_⟩, hmem₁.not.2 ?_⟩
  · intro y hy hne
    rw [Finset.mem_insert, Finset.mem_singleton, or_iff_left hne] at hy
    subst hy
    rw [hdepth₁, hdepth₂]
    decide
  · intro hdeepest
    obtain ⟨c, hcol, -, hdeepest⟩ := hdeepest
    obtain rfl : c = 0 := Finset.mem_singleton.1 hcol
    have hlt := hdeepest 1 (by decide) (by decide) (by rw [hdepth₁]; decide)
    rw [hdepth₁, hdepth₂] at hlt
    omega

end Sketch

end GraphStreamingCC
