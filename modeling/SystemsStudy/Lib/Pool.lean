/-
SystemsStudy/Lib/Pool.lean

A pool of resources with its owners.

Each resource is either free or held, and what is held is held in lists, each
filed under its own first element: whoever returns that one element gets the
whole list released.  `Valid res p` says that the free and the held resources
together are exactly the resources `res`, each once, and that every list is
filed under its head.

Both operations keep this: `take` moves resources from the free list to a new
owner, `giveBack` releases what is filed under a key, and does nothing for a
key under which nothing is filed.  That the taken list does not collide with an
existing owner needs no check (`Valid.lookup_eq_none`), because the key is
itself one of the resources.
-/
import Mathlib.Tactic
import Mathlib.Data.List.AList

variable {α : Type} [DecidableEq α]

/-- Free resources, and the held ones by their first element. -/
structure Pool (α : Type) [DecidableEq α] where
  free : List α
  held : AList fun _ : α => List α

namespace Pool

/-- Every held resource, as often as it is held. -/
def owned (p : Pool α) : List α := p.held.entries.flatMap fun e => e.2

/-- The free and the held resources are those of `res`, each once. -/
structure Valid (res : List α) (p : Pool α) : Prop where
  perm : (p.free ++ p.owned).Perm res
  heads : ∀ k xs, p.held.lookup k = some xs → xs.head? = some k

/-- Move `xs` to the owner `k`, leaving `free`. -/
def take (p : Pool α) (free : List α) (k : α) (xs : List α) : Pool α :=
  ⟨free, p.held.insert k xs⟩

/-- Release what is filed under `k`. -/
def giveBack (p : Pool α) (k : α) : Pool α :=
  match p.held.lookup k with
  | some xs => ⟨p.free ++ xs, p.held.erase k⟩
  | none => p

variable {res : List α} {p : Pool α}

/-! ### What is held -/

theorem mem_owned {x : α} : x ∈ p.owned ↔ ∃ k xs, p.held.lookup k = some xs ∧ x ∈ xs := by
  constructor
  · intro h
    obtain ⟨⟨k, xs⟩, he, hx⟩ := List.mem_flatMap.mp h
    exact ⟨k, xs, AList.mem_lookup_iff.mpr he, hx⟩
  · rintro ⟨k, xs, hk, hx⟩
    exact List.mem_flatMap.mpr ⟨⟨k, xs⟩, AList.mem_lookup_iff.mp hk, hx⟩

/-- Taking one owner's list out of the held resources. -/
theorem owned_perm_of_lookup {k : α} {xs : List α} (h : p.held.lookup k = some xs) :
    p.owned.Perm (xs ++ (⟨p.free, p.held.erase k⟩ : Pool α).owned) := by
  have hk : k ∈ p.held.entries.keys := AList.lookup_isSome.mp (by rw [h]; rfl)
  obtain ⟨ys, l₁, l₂, -, he, hker⟩ := List.exists_of_kerase hk
  have hys : p.held.lookup k = some ys :=
    AList.mem_lookup_iff.mpr (by rw [he]; simp)
  obtain rfl : ys = xs := Option.some.inj (hys.symm.trans h)
  have her : (p.held.erase k).entries = l₁ ++ l₂ := hker
  rw [owned, owned, he, her]
  simp only [List.flatMap_append, List.flatMap_cons]
  exact List.perm_append_comm_assoc _ _ _

namespace Valid

theorem nodup (h : p.Valid res) (hres : res.Nodup) : (p.free ++ p.owned).Nodup :=
  h.perm.nodup_iff.mpr hres

theorem mem_of_free (h : p.Valid res) {x : α} (hx : x ∈ p.free) : x ∈ res :=
  h.perm.mem_iff.mp (List.mem_append_left _ hx)

/-- A free resource is not held by anyone. -/
theorem not_mem_of_free (h : p.Valid res) (hres : res.Nodup) {x k : α} {xs : List α}
    (hx : x ∈ p.free) (hk : p.held.lookup k = some xs) : x ∉ xs := fun hmem =>
  List.disjoint_of_nodup_append (h.nodup hres) hx (mem_owned.mpr ⟨k, xs, hk, hmem⟩)

/-- Nothing is filed under a free resource. -/
theorem lookup_eq_none (h : p.Valid res) (hres : res.Nodup) {k : α} (hk : k ∈ p.free) :
    p.held.lookup k = none := by
  rcases e : p.held.lookup k with - | xs
  · rfl
  · have hhead := h.heads k xs e
    exact absurd (List.mem_of_mem_head? hhead) (h.not_mem_of_free hres hk e)

/-- There are at most as many owners as resources that are not free. -/
theorem length_keys_le (h : p.Valid res) : p.held.keys.length + p.free.length ≤ res.length := by
  have hlen : p.held.entries.length ≤ p.owned.length := by
    have hpos : ∀ e ∈ p.held.entries, 1 ≤ (e.2 : List α).length := by
      rintro ⟨k, xs⟩ he
      have hhead := h.heads k xs (AList.mem_lookup_iff.mpr he)
      rcases xs with - | ⟨x, xs⟩
      · cases hhead
      · exact Nat.succ_pos _
    have hsum := List.length_le_sum_of_one_le
      (p.held.entries.map fun e => (e.2 : List α).length) (List.forall_mem_map.mpr hpos)
    rwa [List.length_map, ← List.length_flatMap] at hsum
  have hperm := h.perm.length_eq
  rw [List.length_append] at hperm
  rw [AList.keys, List.keys, List.length_map]
  omega

/-! ### The operations -/

theorem take (h : p.Valid res) (hres : res.Nodup) {free : List α} {k : α} {xs : List α}
    (hfree : p.free.Perm (free ++ k :: xs)) : (p.take free k (k :: xs)).Valid res := by
  have hk : p.held.lookup k = none :=
    h.lookup_eq_none hres (hfree.mem_iff.mpr (by simp))
  have hentries : (p.held.insert k (k :: xs)).entries = ⟨k, k :: xs⟩ :: p.held.entries :=
    AList.entries_insert_of_notMem (AList.lookup_eq_none.mp hk)
  constructor
  · have howned : (p.take free k (k :: xs)).owned = (k :: xs) ++ p.owned := by
      rw [owned, owned, Pool.take, hentries, List.flatMap_cons]
    rw [howned]
    show (free ++ ((k :: xs) ++ p.owned)).Perm res
    rw [← List.append_assoc]
    exact (hfree.symm.append_right _).trans h.perm
  · intro k' ys hk'
    by_cases hne : k' = k
    · subst hne
      rw [Pool.take, AList.lookup_insert] at hk'
      obtain rfl := Option.some.inj hk'
      rfl
    · rw [Pool.take, AList.lookup_insert_ne hne] at hk'
      exact h.heads k' ys hk'

theorem giveBack (h : p.Valid res) (k : α) : (p.giveBack k).Valid res := by
  rcases e : p.held.lookup k with - | xs
  · rw [Pool.giveBack, e]
    exact h
  · rw [Pool.giveBack, e]
    constructor
    · show (p.free ++ xs ++ _).Perm res
      rw [List.append_assoc]
      exact ((owned_perm_of_lookup e).symm.append_left _).trans h.perm
    · intro k' ys hk'
      by_cases hne : k' = k
      · subst hne
        rw [AList.lookup_erase] at hk'
        cases hk'
      · rw [AList.lookup_erase_ne hne] at hk'
        exact h.heads k' ys hk'

end Valid

end Pool
