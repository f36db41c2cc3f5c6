/-
The rounds of Boruvka's algorithm, on the partitions of a set; independent of any program.

In a round an oracle is asked for an edge of every block of the partition, and the blocks that these edges join are
united (`next`). The oracle may also answer that no edge leaves the block, or fail. The answers are a function of the
blocks, so the partitions after each round are one sequence (`partitionAt`).

If every answer fits a graph (`Outcome.Fits`):
- a round in which nothing fails and no blocks are united has found the components (`eq_reachable_of_settled`);
- a round in which nothing fails leaves at most half as many blocks that an edge leaves (`two_mul_card_active_next_le`),
  so `log 2` of the number of items bounds the rounds (`lt_log_of_not_settled`).
-/
import Mathlib.Tactic
import Mathlib.Combinatorics.SimpleGraph.Connectivity.Connected
import Mathlib.Data.Setoid.Basic

namespace GraphStreamingCC.Rounds

variable {V : Type*}

/-- what the oracle says about a block -/
inductive Outcome (V : Type*) where
  | fail
  /-- no edge leaves the block -/
  | zero
  | good (e : V × V)
deriving DecidableEq

variable [Fintype V]

open Classical in
/-- the block of v -/
noncomputable def block (σ : Setoid V) (v : V) : Finset V := Finset.univ.filter fun u => σ u v

/-- some block has this edge -/
def Chosen (out : Finset V → Outcome V) (σ : Setoid V) (e : V × V) : Prop := ∃ v, out (block σ v) = .good e

/-- the oracle fails for some block -/
def Failed (out : Finset V → Outcome V) (σ : Setoid V) : Prop := ∃ v, out (block σ v) = .fail

omit [Fintype V] in
/-- the blocks of the partition united along edges -/
def joined (E : V × V → Prop) (σ : Setoid V) : Setoid V := σ ⊔ Relation.EqvGen.setoid fun a b => E (a, b)

/-- the partition after a round -/
def next (out : Finset V → Outcome V) (σ : Setoid V) : Setoid V := joined (Chosen out σ) σ

/-- nothing fails in this round, and no blocks are united -/
def Settled (out : Finset V → Outcome V) (σ : Setoid V) : Prop := ¬ Failed out σ ∧ next out σ = σ

/-- the partition at the begin of round r -/
def partitionAt (oracle : ℕ → Finset V → Outcome V) : ℕ → Setoid V
  | 0 => ⊥
  | r + 1 => next (oracle r) (partitionAt oracle r)

/-- round r is settled -/
def SettledAt (oracle : ℕ → Finset V → Outcome V) (r : ℕ) : Prop := Settled (oracle r) (partitionAt oracle r)

variable {out : Finset V → Outcome V} {σ τ : Setoid V} {u v : V} {e : V × V}

/-! ## Blocks -/

theorem mem_block : u ∈ block σ v ↔ σ u v := by
  simp only [block, Finset.mem_filter, Finset.mem_univ, true_and]

theorem self_mem_block (σ : Setoid V) (v : V) : v ∈ block σ v := mem_block.2 (σ.refl v)

theorem block_eq_iff : block σ u = block σ v ↔ σ u v := by
  constructor
  · intro h
    exact mem_block.1 (h ▸ self_mem_block σ u)
  · intro h
    ext w
    rw [mem_block, mem_block]
    exact ⟨fun hw => σ.trans hw h, fun hw => σ.trans hw (σ.symm h)⟩

theorem block_subset (h : σ ≤ τ) (hv : τ u v) : block σ u ⊆ block τ v := fun _ hw =>
  mem_block.2 (τ.trans (h (mem_block.1 hw)) hv)

omit [Fintype V] in
theorem le_joined (E : V × V → Prop) (σ : Setoid V) : σ ≤ joined E σ := le_sup_left

omit [Fintype V] in
theorem joined_of_edge {E : V × V → Prop} (he : E e) : joined E σ e.1 e.2 :=
  (le_sup_right : Relation.EqvGen.setoid (fun a b => E (a, b)) ≤ joined E σ) (Relation.EqvGen.rel _ _ he)

omit [Fintype V] in
theorem joined_le {E : V × V → Prop} (h : σ ≤ τ) (hE : ∀ e, E e → τ e.1 e.2) : joined E σ ≤ τ :=
  sup_le h (Setoid.eqvGen_le fun a b hab => hE (a, b) hab)

theorem le_next (out : Finset V → Outcome V) (σ : Setoid V) : σ ≤ next out σ := le_joined _ σ

theorem next_of_good (h : out (block σ v) = .good e) : next out σ e.1 e.2 := joined_of_edge ⟨v, h⟩

/-! ## Oracles of a graph -/

omit [Fintype V] in
/-- some edge leaves the block -/
def Leaves (G : SimpleGraph V) (B : Finset V) : Prop := ∃ a ∈ B, ∃ b, b ∉ B ∧ G.Adj a b

omit [Fintype V] in
/-- what is said about the block is right: the edge leaves it, or none does -/
def Outcome.Fits (G : SimpleGraph V) (B : Finset V) : Outcome V → Prop
  | .fail => True
  | .zero => ¬ Leaves G B
  | .good e => G.Adj e.1 e.2 ∧ (e.1 ∈ B ↔ e.2 ∉ B)

variable {G : SimpleGraph V}

omit [Fintype V] in
/-- the end of the edge in the block, and the other one -/
theorem Outcome.Fits.ends {B : Finset V} (h : (Outcome.good e).Fits G B) :
    ∃ a ∈ B, ∃ b, b ∉ B ∧ G.Adj a b ∧ (e = (a, b) ∨ e = (b, a)) := by
  obtain ⟨hadj, hcross⟩ := h
  by_cases he : e.1 ∈ B
  · exact ⟨e.1, he, e.2, hcross.1 he, hadj, .inl rfl⟩
  · exact ⟨e.2, not_not.1 fun h2 => he (hcross.2 h2), e.1, he, hadj.symm, .inr rfl⟩

/-- a round unites within components only -/
theorem next_le_reachable (hle : σ ≤ G.reachableSetoid) (hfits : ∀ v, (out (block σ v)).Fits G (block σ v)) :
    next out σ ≤ G.reachableSetoid := by
  refine joined_le hle fun e he => ?_
  obtain ⟨v, hv⟩ := he
  have hfit := hfits v
  rw [hv] at hfit
  exact hfit.1.reachable

/-- an edge that leaves a block of a fitting oracle that does not fail -/
theorem exists_good (hfits : (out (block σ v)).Fits G (block σ v)) (hfail : out (block σ v) ≠ .fail)
    (hleaves : Leaves G (block σ v)) : ∃ a b, σ a v ∧ ¬ σ b v ∧ G.Adj a b ∧ next out σ a b := by
  cases hout : out (block σ v) with
  | fail => exact absurd hout hfail
  | zero =>
    rw [hout] at hfits
    exact absurd hleaves hfits
  | good e =>
    rw [hout] at hfits
    obtain ⟨a, ha, b, hb, hadj, he⟩ := hfits.ends
    have hnext := next_of_good hout
    refine ⟨a, b, mem_block.1 ha, fun h => hb (mem_block.2 h), hadj, ?_⟩
    rcases he with rfl | rfl
    · exact hnext
    · exact (next out σ).symm hnext

/-- **The components are found** by a round that unites nothing and in which nothing fails. -/
theorem eq_reachable_of_settled (hle : σ ≤ G.reachableSetoid) (hfits : ∀ v, (out (block σ v)).Fits G (block σ v))
    (h : Settled out σ) : σ = G.reachableSetoid := by
  obtain ⟨hfail, hnext⟩ := h
  have hadj : ∀ a b, G.Adj a b → σ a b := by
    intro a b hab
    by_contra hne
    have hleaves : Leaves G (block σ a) :=
      ⟨a, self_mem_block σ a, b, fun hb => hne (σ.symm (mem_block.1 hb)), hab⟩
    obtain ⟨c, d, hc, hd, -, hcd⟩ := exists_good (hfits a) (fun hf => hfail ⟨a, hf⟩) hleaves
    -- nothing is united, but this edge would unite two blocks
    rw [hnext] at hcd
    exact hd (σ.trans (σ.symm hcd) hc)
  refine le_antisymm hle fun {x y} hxy => ?_
  obtain ⟨w⟩ : G.Reachable x y := hxy
  induction w with
  | nil => exact σ.refl _
  | cons hab _ ih => exact σ.trans (hadj _ _ hab) ih

/-- what is said in round r is right -/
def FitsAt (G : SimpleGraph V) (oracle : ℕ → Finset V → Outcome V) (r : ℕ) : Prop :=
  ∀ v, (oracle r (block (partitionAt oracle r) v)).Fits G (block (partitionAt oracle r) v)

variable {oracle : ℕ → Finset V → Outcome V} {r : ℕ}

theorem partitionAt_le_reachable (hfits : ∀ k < r, FitsAt G oracle k) : partitionAt oracle r ≤ G.reachableSetoid := by
  induction r with
  | zero => exact bot_le
  | succ r ih => exact next_le_reachable (ih fun k hk => hfits k (hk.trans r.lt_succ_self)) (hfits r r.lt_succ_self)

/-! ## Halving -/

open Classical in
/-- the blocks that an edge leaves -/
noncomputable def active (G : SimpleGraph V) (σ : Setoid V) : Finset (Finset V) :=
  (Finset.univ.image (block σ)).filter (Leaves G)

theorem mem_active {B : Finset V} : B ∈ active G σ ↔ (∃ v, block σ v = B) ∧ Leaves G B := by
  simp only [active, Finset.mem_filter, Finset.mem_image, Finset.mem_univ, true_and]

theorem block_mem_active {a b : V} (hab : G.Adj a b) (h : ¬ σ a b) : block σ a ∈ active G σ :=
  mem_active.2 ⟨⟨a, rfl⟩, a, self_mem_block σ a, b, fun hb => h (σ.symm (mem_block.1 hb)), hab⟩

open Classical in
/-- every block that an edge still leaves was made of two such blocks at least -/
theorem two_le_card_inside (hfits : ∀ v, (out (block σ v)).Fits G (block σ v)) (hfail : ¬ Failed out σ) {C : Finset V}
    (hC : C ∈ active G (next out σ)) : 2 ≤ ((active G σ).filter fun B => B ⊆ C).card := by
  obtain ⟨⟨v, rfl⟩, a, ha, b, hb, hab⟩ := mem_active.1 hC
  have hsub : ∀ {w}, next out σ w v → block σ w ⊆ block (next out σ) v := fun hw => block_subset (le_next out σ) hw
  have hav := mem_block.1 ha
  have hnot : ¬ σ a b := fun h => hb (mem_block.2 ((next out σ).trans ((next out σ).symm (le_next out σ h)) hav))
  have hactive := block_mem_active hab hnot
  obtain ⟨c, d, hc, hd, hcd, hnext⟩ := exists_good (hfits a) (fun hf => hfail ⟨a, hf⟩) (mem_active.1 hactive).2
  -- the block at the other end of its edge
  have hdc : ¬ σ d c := fun h => hd (σ.trans h hc)
  have hdv : next out σ d v := (next out σ).trans ((next out σ).symm hnext) ((next out σ).trans (le_next out σ hc) hav)
  have hne : block σ a ≠ block σ d := fun he => hd (σ.symm (block_eq_iff.1 he))
  refine Finset.one_lt_card.2 ⟨block σ a, ?_, block σ d, ?_, hne⟩
  · exact Finset.mem_filter.2 ⟨hactive, hsub hav⟩
  · exact Finset.mem_filter.2 ⟨block_mem_active hcd.symm hdc, hsub hdv⟩

/-- **A round without a failure halves the number of blocks that an edge leaves.** -/
theorem two_mul_card_active_next_le (hfits : ∀ v, (out (block σ v)).Fits G (block σ v)) (hfail : ¬ Failed out σ) :
    2 * (active G (next out σ)).card ≤ (active G σ).card := by
  classical
  have hdisjoint : ∀ C ∈ active G (next out σ), ∀ C' ∈ active G (next out σ), C ≠ C' →
      Disjoint ((active G σ).filter fun B => B ⊆ C) ((active G σ).filter fun B => B ⊆ C') := by
    intro C hC C' hC' hne
    refine Finset.disjoint_left.2 fun B hB hB' => hne ?_
    obtain ⟨hactive, hBC⟩ := Finset.mem_filter.1 hB
    have hBC' := (Finset.mem_filter.1 hB').2
    obtain ⟨v, rfl⟩ := (mem_active.1 hactive).1
    obtain ⟨w, rfl⟩ := (mem_active.1 hC).1
    obtain ⟨w', rfl⟩ := (mem_active.1 hC').1
    have hw := mem_block.1 (hBC (self_mem_block σ v))
    have hw' := mem_block.1 (hBC' (self_mem_block σ v))
    exact block_eq_iff.2 ((next out σ).trans ((next out σ).symm hw) hw')
  calc 2 * (active G (next out σ)).card
      = ∑ _C ∈ active G (next out σ), 2 := by rw [Finset.sum_const, smul_eq_mul, mul_comm]
    _ ≤ ∑ C ∈ active G (next out σ), ((active G σ).filter fun B => B ⊆ C).card :=
        Finset.sum_le_sum fun C hC => two_le_card_inside hfits hfail hC
    _ = ((active G (next out σ)).biUnion fun C => (active G σ).filter fun B => B ⊆ C).card :=
        (Finset.card_biUnion hdisjoint).symm
    _ ≤ (active G σ).card := Finset.card_le_card (Finset.biUnion_subset.2 fun C _ => Finset.filter_subset _ _)

/-- a block that an edge leaves is not alone -/
theorem two_le_card_active {a b : V} (hab : G.Adj a b) (h : ¬ σ a b) : 2 ≤ (active G σ).card :=
  Finset.one_lt_card.2 ⟨block σ a, block_mem_active hab h, block σ b, block_mem_active hab.symm fun hb => h (σ.symm hb),
    fun he => h (block_eq_iff.1 he)⟩

theorem two_pow_mul_card_active_le (hfits : ∀ k < r, FitsAt G oracle k)
    (hfail : ∀ k < r, ¬ Failed (oracle k) (partitionAt oracle k)) :
    2 ^ r * (active G (partitionAt oracle r)).card ≤ Fintype.card V := by
  induction r with
  | zero =>
    classical
    rw [pow_zero, one_mul]
    calc (active G (partitionAt oracle 0)).card ≤ (Finset.univ.image (block (partitionAt oracle 0))).card :=
          Finset.card_le_card (Finset.filter_subset _ _)
      _ ≤ Fintype.card V := Finset.card_image_le
  | succ r ih =>
    calc 2 ^ (r + 1) * (active G (partitionAt oracle (r + 1))).card
        = 2 ^ r * (2 * (active G (next (oracle r) (partitionAt oracle r))).card) := by rw [pow_succ, mul_assoc]; rfl
      _ ≤ 2 ^ r * (active G (partitionAt oracle r)).card := Nat.mul_le_mul_left _
          (two_mul_card_active_next_le (hfits r r.lt_succ_self) (hfail r r.lt_succ_self))
      _ ≤ Fintype.card V := ih (fun k hk => hfits k (hk.trans r.lt_succ_self)) fun k hk => hfail k (hk.trans r.lt_succ_self)

/-- **A logarithmic number of rounds.** Without failures, a round that unites blocks has a number below the logarithm. -/
theorem lt_log_of_not_settled (hfits : ∀ k ≤ r, FitsAt G oracle k)
    (hfail : ∀ k ≤ r, ¬ Failed (oracle k) (partitionAt oracle k)) (h : ¬ SettledAt oracle r) :
    r < Nat.log 2 (Fintype.card V) := by
  have hchosen : ∃ e, Chosen (oracle r) (partitionAt oracle r) e := by
    by_contra hno
    refine h ⟨hfail r le_rfl, le_antisymm (joined_le le_rfl fun e he => absurd ⟨e, he⟩ hno) (le_next _ _)⟩
  obtain ⟨e, v, hv⟩ := hchosen
  have hfit := hfits r le_rfl v
  rw [hv] at hfit
  obtain ⟨a, ha, b, hb, hab, -⟩ := hfit.ends
  have htwo : 2 ≤ (active G (partitionAt oracle r)).card :=
    two_le_card_active hab fun h =>
      hb (mem_block.2 ((partitionAt oracle r).trans ((partitionAt oracle r).symm h) (mem_block.1 ha)))
  have hbound := two_pow_mul_card_active_le (fun k hk => hfits k hk.le) fun k hk => hfail k hk.le
  have hpow : 2 ^ (r + 1) ≤ Fintype.card V := by
    rw [pow_succ]
    exact (Nat.mul_le_mul_left _ htwo).trans hbound
  exact Nat.lt_of_lt_of_le r.lt_succ_self (Nat.le_log_of_pow_le one_lt_two hpow)

end GraphStreamingCC.Rounds
