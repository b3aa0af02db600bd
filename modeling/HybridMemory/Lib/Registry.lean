import Mathlib.Data.Finmap
import Mathlib.Data.Multiset.Bind

/-!
# Tables kept for a family of owners

Several owners keep entries in one table, a finite map. The table is right if its entries are
those of the owners, taken together with multiplicities; since a table has no key twice, no two
owners then share a key.

* `lists_cons`: the entries of one owner and those of the others;
* `Lists.lookup`, `Lists.exists_of_lookup`, `Lists.exists_of_mem`: what is found in the table
  is what the owners have;
* `entries_insert_of_cons`, `entries_erase_of_cons`: the entries after an update.
-/

universe u v w

namespace Registry

variable {ι : Type u} {κ : Type v} {ν : Type w} {f : ι → Multiset (Σ _ : κ, ν)}
  {owners rest : Multiset ι} {t : Finmap fun _ : κ => ν} {i j : ι} {k : κ} {x y : ν}
  {e : Multiset (Σ _ : κ, ν)}

/-- The table has the entries of the owners. -/
def Lists (f : ι → Multiset (Σ _ : κ, ν)) (owners : Multiset ι) (t : Finmap fun _ : κ => ν) :
    Prop :=
  t.entries = owners.bind f

theorem lists_zero : Lists f 0 ∅ := rfl

/-- The entries of one owner and of the others. -/
theorem lists_cons : Lists f (i ::ₘ rest) t ↔ t.entries = f i + rest.bind f := by
  rw [Lists, Multiset.cons_bind]

/-- An owner that changes may keep its entries. -/
theorem Lists.congr (h : Lists f (i ::ₘ rest) t) (heq : f j = f i) : Lists f (j ::ₘ rest) t := by
  rw [lists_cons] at h ⊢
  rw [h, heq]

/-- An owner without entries. -/
theorem lists_cons_of_eq_zero (hi : f i = 0) : Lists f (i ::ₘ rest) t ↔ Lists f rest t := by
  rw [lists_cons, hi, zero_add, Lists]

variable [DecidableEq κ]

/-- The entries after a new key is inserted. -/
theorem entries_insert_of_eq (hk : k ∉ t) (h : t.entries = e) :
    (t.insert k x).entries = ⟨k, x⟩ ::ₘ e := by
  rw [Finmap.entries_insert_of_notMem hk, h]

theorem lookup_of_cons (h : t.entries = ⟨k, x⟩ ::ₘ e) : t.lookup k = some x :=
  Finmap.lookup_eq_some_iff.mpr (h ▸ Multiset.mem_cons_self _ _)

/-- The entries after a key is erased. -/
theorem entries_erase_of_cons (h : t.entries = ⟨k, x⟩ ::ₘ e) : (t.erase k).entries = e := by
  have hinsert : (t.erase k).insert k x = t := by
    refine Finmap.ext_lookup fun k' => ?_
    by_cases hk : k' = k
    · rw [hk, Finmap.lookup_insert, lookup_of_cons h]
    · rw [Finmap.lookup_insert_of_ne _ hk, Finmap.lookup_erase_ne hk]
  have hentries : ((t.erase k).insert k x).entries = ⟨k, x⟩ ::ₘ (t.erase k).entries :=
    Finmap.entries_insert_of_notMem Finmap.notMem_erase_self
  rw [hinsert, h] at hentries
  exact ((Multiset.cons_inj_right _).mp hentries).symm

/-- The entries after a key gets another value. -/
theorem entries_insert_of_cons (h : t.entries = ⟨k, x⟩ ::ₘ e) :
    (t.insert k y).entries = ⟨k, y⟩ ::ₘ e := by
  have hinsert : (t.erase k).insert k y = t.insert k y := by
    refine Finmap.ext_lookup fun k' => ?_
    by_cases hk : k' = k
    · rw [hk, Finmap.lookup_insert, Finmap.lookup_insert]
    · rw [Finmap.lookup_insert_of_ne _ hk, Finmap.lookup_insert_of_ne _ hk,
        Finmap.lookup_erase_ne hk]
  rw [← hinsert]
  exact entries_insert_of_eq Finmap.notMem_erase_self (entries_erase_of_cons h)

/-- What an owner has is in the table. -/
theorem Lists.lookup (h : Lists f owners t) (hj : j ∈ owners) (hx : ⟨k, x⟩ ∈ f j) :
    t.lookup k = some x :=
  Finmap.lookup_eq_some_iff.mpr (h ▸ Multiset.mem_bind.mpr ⟨j, hj, hx⟩)

/-- What is in the table is had by some owner. -/
theorem Lists.exists_of_lookup (h : Lists f owners t) (hx : t.lookup k = some x) :
    ∃ j rest, owners = j ::ₘ rest ∧ ⟨k, x⟩ ∈ f j := by
  obtain ⟨j, hj, hmem⟩ := Multiset.mem_bind.mp (h ▸ Finmap.lookup_eq_some_iff.mp hx)
  obtain ⟨rest, hrest⟩ := Multiset.exists_cons_of_mem hj
  exact ⟨j, rest, hrest, hmem⟩

/-- A key of the table is that of some owner. -/
theorem Lists.exists_of_mem (h : Lists f owners t) (hk : k ∈ t) :
    ∃ j ∈ owners, ∃ x, ⟨k, x⟩ ∈ f j := by
  obtain ⟨x, hx⟩ := Finmap.mem_iff.mp hk
  obtain ⟨j, hj, hmem⟩ := Multiset.mem_bind.mp (h ▸ Finmap.lookup_eq_some_iff.mp hx)
  exact ⟨j, hj, x, hmem⟩

end Registry
