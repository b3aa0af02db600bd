import HybridMemory.Lib.Chains
import Mathlib.Data.List.Nodup
import Mathlib.Data.List.Perm.Basic
import Mathlib.Data.List.Sort

/-!
# Pools of slots with chains

An array of objects whose slots are handed out and taken back. The slots in use and those
that are free are kept in the order in which they became so: a slot that is handed out joins
the end of the list `used`, one that is taken back the end of the list `avail`. A slot that
was taken back keeps its object until it is handed out again. The slots in use can be linked
into chains; the allocations are numbered, and the numbers grow along the chains and along the
list of the slots in use.
-/

universe u

structure LinkedPool (β : Type u) where
  objects : ℕ → β
  used : List ℕ
  avail : List ℕ
  links : Chains ℕ
  serial : ℕ → ℕ
  allocated : ℕ

namespace LinkedPool

open Function

variable {β : Type u} {p q : LinkedPool β} {i j k size : ℕ} {b : β}

/-- All slots are free. -/
def reset (size : ℕ) (b : β) : LinkedPool β where
  objects := fun _ => b
  used := []
  avail := List.range size
  links := ⟨fun _ => none, fun _ => none⟩
  serial := fun _ => 0
  allocated := 0

/-- The first free slot is handed out. -/
def alloc (p : LinkedPool β) (b : β) : Option (ℕ × LinkedPool β) :=
  match p.avail with
  | [] => none
  | i :: avail => some (i,
      { objects := update p.objects i b
        used := p.used ++ [i]
        avail := avail
        links := p.links.fresh i
        serial := update p.serial i p.allocated
        allocated := p.allocated + 1 })

/-- A slot is taken back. -/
def free (p : LinkedPool β) (i : ℕ) : LinkedPool β :=
  { p with used := p.used.erase i, avail := p.avail ++ [i] }

/-- The object in a slot changes. -/
def modify (p : LinkedPool β) (i : ℕ) (f : β → β) : LinkedPool β :=
  { p with objects := update p.objects i (f (p.objects i)) }

/-- Slot `i` is put behind slot `k`. -/
def link (p : LinkedPool β) (k i : ℕ) : LinkedPool β := { p with links := p.links.link k i }

/-- A slot leaves its chain and is taken back. -/
def remove (p : LinkedPool β) (i : ℕ) : LinkedPool β :=
  { p.free i with links := p.links.unlink i }

theorem objects_modify_self (p : LinkedPool β) (i : ℕ) (f : β → β) :
    (p.modify i f).objects i = f (p.objects i) := update_self ..

theorem objects_modify_of_ne {f : β → β} (h : j ≠ i) :
    (p.modify i f).objects j = p.objects j := update_of_ne h ..

/-- The pool has `size` slots, each listed once, and the links are well formed. -/
structure WellFormed (p : LinkedPool β) (size : ℕ) : Prop where
  nodup : (p.used ++ p.avail).Nodup
  length_eq : p.used.length + p.avail.length = size
  links : p.links.WellFormed p.used p.serial
  sorted : p.used.Pairwise fun i j => p.serial i < p.serial j
  serial_lt : ∀ i ∈ p.used, p.serial i < p.allocated

theorem wellFormed_reset : (reset size b).WellFormed size :=
  ⟨List.nodup_range, by simp [reset], ⟨nofun, nofun⟩, List.Pairwise.nil, nofun⟩

section WellFormed

variable (h : p.WellFormed size)
include h

theorem WellFormed.modify (i : ℕ) (f : β → β) : (p.modify i f).WellFormed size :=
  ⟨h.nodup, h.length_eq, h.links, h.sorted, h.serial_lt⟩

theorem WellFormed.used_nodup : p.used.Nodup := (List.nodup_append.mp h.nodup).1

theorem WellFormed.mem_remove : j ∈ (p.remove i).used ↔ j ∈ p.used ∧ j ≠ i := by
  rw [LinkedPool.remove, free, h.used_nodup.mem_erase_iff, and_comm]

theorem WellFormed.remove (hi : i ∈ p.used) : (p.remove i).WellFormed size := by
  have hperm : (p.used.erase i ++ (p.avail ++ [i])).Perm (p.used ++ p.avail) := by
    rw [← List.append_assoc]
    refine (List.perm_append_singleton i _).trans ?_
    exact (List.perm_cons_erase hi).symm.append_right p.avail
  constructor
  · exact hperm.nodup_iff.mpr h.nodup
  · calc (p.remove i).used.length + (p.remove i).avail.length
      _ = (p.used.erase i ++ (p.avail ++ [i])).length := List.length_append.symm
      _ = (p.used ++ p.avail).length := hperm.length_eq
      _ = size := by rw [List.length_append, h.length_eq]
  · exact h.links.unlink hi fun x => h.mem_remove
  · exact h.sorted.sublist List.erase_sublist
  · exact fun x hx => h.serial_lt x (h.mem_remove.mp hx).1

/-- A slot without a next one takes a later slot without a previous one behind it. -/
theorem WellFormed.link (hk : k ∈ p.used) (hi : i ∈ p.used) (hnext : p.links.next k = none)
    (hprev : p.links.prev i = none) (hlt : p.serial k < p.serial i) :
    (p.link k i).WellFormed size :=
  ⟨h.nodup, h.length_eq, h.links.link hk hi hnext hprev hlt, h.sorted, h.serial_lt⟩

/-- The walk along a chain ends within the size of the pool. -/
theorem WellFormed.exists_last (hi : i ∈ p.used) :
    ∃ k ∈ p.used, p.links.last size i = some k ∧ p.links.next k = none := by
  refine h.links.exists_last hi ?_
  calc (p.used.toFinset.filter fun x => p.serial i < p.serial x).card
    _ ≤ p.used.toFinset.card := Finset.card_filter_le ..
    _ ≤ p.used.length := p.used.toFinset_card_le
    _ ≤ size := by
      have hlength := h.length_eq
      omega

end WellFormed

/-- What is known of slot `i` that was handed out: the others are as before, and it has no links
and the highest number. -/
structure Allocated (p : LinkedPool β) (size : ℕ) (b : β) (i : ℕ) (q : LinkedPool β) : Prop where
  wellFormed : q.WellFormed size
  fresh : i ∉ p.used
  mem_used : ∀ j, j ∈ q.used ↔ j ∈ p.used ∨ j = i
  object_self : q.objects i = b
  object_of_mem : ∀ j ∈ p.used, q.objects j = p.objects j
  prev_self : q.links.prev i = none
  prev_of_mem : ∀ j ∈ p.used, q.links.prev j = p.links.prev j
  serial_lt : ∀ j ∈ p.used, q.serial j < q.serial i

theorem WellFormed.alloc (h : p.WellFormed size) (halloc : p.alloc b = some (i, q)) :
    Allocated p size b i q := by
  obtain ⟨objects, used, avail, links, serial, allocated⟩ := p
  cases avail with
  | nil => simp [LinkedPool.alloc] at halloc
  | cons k avail =>
    obtain ⟨rfl, rfl⟩ := Prod.mk.inj (Option.some.inj halloc)
    have hfresh : k ∉ used := fun hmem =>
      (List.nodup_append.mp h.nodup).2.2 k hmem k List.mem_cons_self rfl
    have hne {x : ℕ} (hx : x ∈ used) : x ≠ k := by
      rintro rfl
      exact hfresh hx
    have hmem (x : ℕ) : x ∈ used ++ [k] ↔ x ∈ used ∨ x = k := by
      rw [List.mem_append, List.mem_singleton]
    have hserial {x : ℕ} (hx : x ∈ used) : update serial k allocated x = serial x :=
      update_of_ne (hne hx) ..
    have hself : update serial k allocated k = allocated := update_self ..
    refine ⟨⟨?_, ?_, ?_, ?_, fun x hx => ?_⟩, hfresh, hmem, update_self ..,
      fun x hx => update_of_ne (hne hx) .., update_self ..,
      fun x hx => update_of_ne (hne hx) .., fun x hx => ?_⟩
    · rw [List.append_assoc]
      exact h.nodup
    · have hlength := h.length_eq
      simp only [List.length_append, List.length_cons, List.length_nil] at hlength ⊢
      omega
    · exact (h.links.congr fun x hx => hserial hx).fresh hfresh hmem
    · refine List.pairwise_append.mpr ⟨?_, List.pairwise_singleton .., fun x hx y hy => ?_⟩
      · refine h.sorted.imp_of_mem fun {x y} hx hy hxy => ?_
        exact (hserial hx).trans_lt (hxy.trans_eq (hserial hy).symm)
      · rw [List.mem_singleton.mp hy]
        exact (hserial hx).trans_lt ((h.serial_lt x hx).trans_eq hself.symm)
    · rcases (hmem x).mp hx with hx | rfl
      · exact (hserial hx).trans_lt (Nat.lt_succ_of_lt (h.serial_lt x hx))
      · exact hself.trans_lt (Nat.lt_succ_self allocated)
    · exact (hserial hx).trans_lt ((h.serial_lt x hx).trans_eq hself.symm)

end LinkedPool
