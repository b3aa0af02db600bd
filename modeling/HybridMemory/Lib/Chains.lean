import Mathlib.Data.Finset.Card
import Mathlib.Logic.Relation

/-!
# Chains of linked nodes

Nodes with a link to the next and one to the previous node of a chain. `WellFormed` says that
the two links of the live nodes agree and never lead out of them. A rank that grows along the
chains shows that they have no cycles, so that the walk to the end of a chain ends.
-/

universe u

/-- The links of all nodes. -/
structure Chains (ι : Type u) where
  next : ι → Option ι
  prev : ι → Option ι

namespace Chains

open Function

variable {ι : Type u} [DecidableEq ι]

/-- A node without links. -/
def fresh (c : Chains ι) (i : ι) : Chains ι :=
  ⟨update c.next i none, update c.prev i none⟩

/-- Node `i` is put behind node `k`. -/
def link (c : Chains ι) (k i : ι) : Chains ι :=
  ⟨update c.next k (some i), update c.prev i (some k)⟩

theorem next_fresh (c : Chains ι) (i : ι) : (c.fresh i).next = update c.next i none := rfl

theorem prev_fresh (c : Chains ι) (i : ι) : (c.fresh i).prev = update c.prev i none := rfl

theorem next_link (c : Chains ι) (k i : ι) :
    (c.link k i).next = update c.next k (some i) := rfl

theorem prev_link (c : Chains ι) (k i : ι) :
    (c.link k i).prev = update c.prev i (some k) := rfl

/-- The neighbours of node `i` are linked with each other. -/
def unlink (c : Chains ι) (i : ι) : Chains ι where
  next := match c.prev i with
    | some k => update c.next k (c.next i)
    | none => c.next
  prev := match c.next i with
    | some j => update c.prev j (c.prev i)
    | none => c.prev

/-- The end of the chain of node `i`, if it is at most `n` links away. -/
def last (c : Chains ι) : ℕ → ι → Option ι
  | 0, i => if c.next i = none then some i else none
  | n + 1, i =>
    match c.next i with
    | none => some i
    | some j => c.last n j

/-- The links of the live nodes agree, and the rank grows along them. -/
structure WellFormed (c : Chains ι) (live : List ι) (rank : ι → ℕ) : Prop where
  next : ∀ i ∈ live, ∀ j, c.next i = some j → j ∈ live ∧ c.prev j = some i ∧ rank i < rank j
  prev : ∀ j ∈ live, ∀ i, c.prev j = some i → i ∈ live ∧ c.next i = some j

variable {c : Chains ι} {live live' : List ι} {rank rank' : ι → ℕ} {i j k : ι} {n : ℕ}

variable (h : WellFormed c live rank)

include h

omit [DecidableEq ι] in
theorem WellFormed.congr (hrank : ∀ i ∈ live, rank' i = rank i) : WellFormed c live rank' := by
  refine ⟨fun i hi j hj => ?_, h.prev⟩
  obtain ⟨hlive, hprev, hlt⟩ := h.next i hi j hj
  exact ⟨hlive, hprev, by rw [hrank i hi, hrank j hlive]; exact hlt⟩

theorem WellFormed.fresh (hi : i ∉ live)
    (hlive : ∀ x, x ∈ live' ↔ x ∈ live ∨ x = i) : WellFormed (c.fresh i) live' rank := by
  have hne {x : ι} (hx : x ∈ live) : x ≠ i := fun heq => hi (heq ▸ hx)
  constructor
  · intro x hx y hy
    rcases (hlive x).mp hx with hx | rfl
    · rw [next_fresh, update_of_ne (hne hx)] at hy
      obtain ⟨hylive, hprev, hlt⟩ := h.next x hx y hy
      refine ⟨(hlive y).mpr (Or.inl hylive), ?_, hlt⟩
      rw [prev_fresh, update_of_ne (hne hylive), hprev]
    · simp [next_fresh] at hy
  · intro y hy x hx
    rcases (hlive y).mp hy with hy | rfl
    · rw [prev_fresh, update_of_ne (hne hy)] at hx
      obtain ⟨hxlive, hnext⟩ := h.prev y hy x hx
      refine ⟨(hlive x).mpr (Or.inl hxlive), ?_⟩
      rw [next_fresh, update_of_ne (hne hxlive), hnext]
    · simp [prev_fresh] at hx

theorem WellFormed.link (hk : k ∈ live) (hi : i ∈ live)
    (hnext : c.next k = none) (hprev : c.prev i = none) (hlt : rank k < rank i) :
    WellFormed (c.link k i) live rank := by
  constructor
  · intro x hx y hy
    by_cases hxk : x = k
    · subst hxk
      obtain rfl : i = y := by simpa [next_link] using hy
      exact ⟨hi, by simp [prev_link], hlt⟩
    · rw [next_link, update_of_ne hxk] at hy
      obtain ⟨hylive, hyprev, hxy⟩ := h.next x hx y hy
      refine ⟨hylive, ?_, hxy⟩
      rw [prev_link, update_of_ne, hyprev]
      rintro rfl
      rw [hprev] at hyprev
      contradiction
  · intro y hy x hx
    by_cases hyi : y = i
    · subst hyi
      obtain rfl : k = x := by simpa [prev_link] using hx
      exact ⟨hk, by simp [next_link]⟩
    · rw [prev_link, update_of_ne hyi] at hx
      obtain ⟨hxlive, hxnext⟩ := h.prev y hy x hx
      refine ⟨hxlive, ?_⟩
      rw [next_link, update_of_ne, hxnext]
      rintro rfl
      rw [hnext] at hxnext
      contradiction

/-- The next node after the neighbours of `i` were linked. -/
theorem WellFormed.next_unlink (hi : i ∈ live) (hj : j ∈ live) :
    (c.unlink i).next j = if c.next j = some i then c.next i else c.next j := by
  rw [unlink]
  cases hprev : c.prev i with
  | none =>
    rw [if_neg]
    intro hnext
    have := (h.next j hj i hnext).2.1
    rw [hprev] at this
    contradiction
  | some k =>
    have hk := h.prev i hi k hprev
    by_cases hjk : j = k
    · subst hjk
      simp [hk.2]
    · rw [if_neg]
      · exact update_of_ne hjk ..
      · intro hnext
        have := (h.next j hj i hnext).2.1
        rw [hprev] at this
        exact hjk (Option.some.inj this).symm

theorem WellFormed.prev_unlink (hi : i ∈ live) (hj : j ∈ live) :
    (c.unlink i).prev j = if c.prev j = some i then c.prev i else c.prev j := by
  rw [unlink]
  cases hnext : c.next i with
  | none =>
    rw [if_neg]
    intro hprev
    have := (h.prev j hj i hprev).2
    rw [hnext] at this
    contradiction
  | some k =>
    have hk := h.next i hi k hnext
    by_cases hjk : j = k
    · subst hjk
      simp [hk.2.1]
    · rw [if_neg]
      · exact update_of_ne hjk ..
      · intro hprev
        have := (h.prev j hj i hprev).2
        rw [hnext] at this
        exact hjk (Option.some.inj this).symm

/-- A node leaves its chain. -/
theorem WellFormed.unlink (hi : i ∈ live)
    (hlive : ∀ x, x ∈ live' ↔ x ∈ live ∧ x ≠ i) : WellFormed (c.unlink i) live' rank := by
  constructor
  · intro x hx y hy
    obtain ⟨hx, hxi⟩ := (hlive x).mp hx
    rw [h.next_unlink hi hx] at hy
    split_ifs at hy with hxnext
    · -- `x`, `i` and `y` follow each other
      obtain ⟨hylive, hyprev, hiy⟩ := h.next i hi y hy
      obtain ⟨-, hiprev, hxi'⟩ := h.next x hx i hxnext
      refine ⟨(hlive y).mpr ⟨hylive, ?_⟩, ?_, hxi'.trans hiy⟩
      · rintro rfl
        exact lt_irrefl _ hiy
      · rw [h.prev_unlink hi hylive, if_pos hyprev, hiprev]
    · obtain ⟨hylive, hyprev, hxy⟩ := h.next x hx y hy
      refine ⟨(hlive y).mpr ⟨hylive, ?_⟩, ?_, hxy⟩
      · rintro rfl
        exact hxnext hy
      · rw [h.prev_unlink hi hylive, if_neg, hyprev]
        rw [hyprev]
        exact fun heq => hxi (Option.some.inj heq)
  · intro y hy x hx
    obtain ⟨hy, hyi⟩ := (hlive y).mp hy
    rw [h.prev_unlink hi hy] at hx
    split_ifs at hx with hyprev
    · obtain ⟨hxlive, hxnext⟩ := h.prev i hi x hx
      obtain ⟨-, hinext⟩ := h.prev y hy i hyprev
      refine ⟨(hlive x).mpr ⟨hxlive, ?_⟩, ?_⟩
      · rintro rfl
        exact lt_irrefl _ (h.next x hxlive x hxnext).2.2
      · rw [h.next_unlink hi hxlive, if_pos hxnext, hinext]
    · obtain ⟨hxlive, hxnext⟩ := h.prev y hy x hx
      refine ⟨(hlive x).mpr ⟨hxlive, ?_⟩, ?_⟩
      · rintro rfl
        exact hyprev hx
      · rw [h.next_unlink hi hxlive, if_neg, hxnext]
        rw [hxnext]
        exact fun heq => hyi (Option.some.inj heq)

omit [DecidableEq ι] in
/-- A chain does not come back to where it began. -/
theorem WellFormed.acyclic (hi : i ∈ live) :
    ¬ Relation.TransGen (fun x y => c.next x = some y) i i := by
  intro hcycle
  have hgrow : ∀ j, Relation.TransGen (fun x y => c.next x = some y) i j →
      j ∈ live ∧ rank i < rank j := by
    intro j hj
    induction hj with
    | single hnext =>
      obtain ⟨hlive, -, hlt⟩ := h.next i hi _ hnext
      exact ⟨hlive, hlt⟩
    | tail _ hnext ih =>
      obtain ⟨hlive, -, hlt⟩ := h.next _ ih.1 _ hnext
      exact ⟨hlive, ih.2.trans hlt⟩
  exact lt_irrefl _ (hgrow i hcycle).2

/-- The walk along a chain ends at a live node without a next one; it takes no more links than
there are live nodes of higher rank. -/
theorem WellFormed.exists_last (hi : i ∈ live)
    (hn : (live.toFinset.filter (rank i < rank ·)).card ≤ n) :
    ∃ k ∈ live, c.last n i = some k ∧ c.next k = none := by
  induction n generalizing i with
  | zero =>
    cases hnext : c.next i with
    | none => exact ⟨i, hi, by rw [last, if_pos hnext], hnext⟩
    | some j =>
      obtain ⟨hj, -, hlt⟩ := h.next i hi j hnext
      have hmem : j ∈ live.toFinset.filter (rank i < rank ·) := by simp [hj, hlt]
      exact absurd (Finset.card_pos.mpr ⟨j, hmem⟩) (by omega)
  | succ n ih =>
    cases hnext : c.next i with
    | none => exact ⟨i, hi, by rw [last, hnext], hnext⟩
    | some j =>
      obtain ⟨hj, -, hlt⟩ := h.next i hi j hnext
      have hsub : live.toFinset.filter (rank j < rank ·) ⊂
          live.toFinset.filter (rank i < rank ·) := by
        refine Finset.ssubset_iff_of_subset (fun x hx => ?_) |>.mpr ⟨j, by simp [hj, hlt], by simp⟩
        rw [Finset.mem_filter] at hx ⊢
        exact ⟨hx.1, hlt.trans hx.2⟩
      obtain ⟨k, hk, hlast, hend⟩ := ih hj (by have := Finset.card_lt_card hsub; omega)
      exact ⟨k, hk, by rw [last, hnext]; exact hlast, hend⟩

omit [DecidableEq ι] in
/-- The end of a walk is its beginning, or a node with a previous one. -/
theorem WellFormed.prev_last (hi : i ∈ live)
    (hlast : c.last n i = some k) : k = i ∨ c.prev k ≠ none := by
  induction n generalizing i with
  | zero =>
    rw [last] at hlast
    split_ifs at hlast
    exact Or.inl (Option.some.inj hlast).symm
  | succ n ih =>
    rw [last] at hlast
    cases hnext : c.next i with
    | none =>
      rw [hnext] at hlast
      exact Or.inl (Option.some.inj hlast).symm
    | some j =>
      rw [hnext] at hlast
      obtain ⟨hj, hprev, -⟩ := h.next i hi j hnext
      rcases ih hj hlast with rfl | hk
      · exact Or.inr (by simp [hprev])
      · exact Or.inr hk

end Chains
