import Reckoner.Variables
import Mathlib.Data.List.Nodup

/-!
# Declaring names and taking them back

Declaring new names one after the other puts them at the end of a table, each with a new cell that
holds zero; `Variables.extend` is that table in one step. What was there before is still found where
it was (`lookup_extend`), and forgetting the new names again gives back the entries from before
(`forgetAll_extend`). The new cells stay behind, since cells are never given back.

A table is *sound* if every name has one slot of its own, inside the storage. The empty table is
sound, and soundness survives declarations and changes of the contents.
-/

namespace Reckoner.Variables

variable {v : Variables} {x : String} {slot : Slot} {fresh : List String}

theorem contains_iff_mem_names : v.contains x = true ↔ x ∈ v.names := by
  simp only [contains, lookup, List.lookup_isSome_iff, names, List.mem_map]
  constructor
  · rintro ⟨p, hp, hx⟩
    exact ⟨p, hp, (beq_iff_eq.1 hx).symm⟩
  · rintro ⟨p, hp, rfl⟩
    exact ⟨p, hp, beq_self_eq_true _⟩

/-- Just the names that are not declared have no slot. -/
theorem lookup_eq_none_iff : v.lookup x = none ↔ x ∉ v.names := by
  rw [← contains_iff_mem_names, contains, Bool.not_eq_true, Option.isSome_eq_false_iff,
    Option.isNone_iff_eq_none]

theorem exists_lookup (h : x ∈ v.names) : ∃ slot, v.lookup x = some slot :=
  Option.isSome_iff_exists.1 (contains_iff_mem_names.2 h)

theorem mem_entries_of_lookup (h : v.lookup x = some slot) : (x, slot) ∈ v.entries := by
  obtain ⟨l₁, l₂, hl, -⟩ := List.lookup_eq_some_iff.1 h
  rw [hl]
  exact List.mem_append_right _ List.mem_cons_self

/-! ### Declaring new names -/

/-- The table with new names at its end, each with a cell of its own that holds zero. -/
def extend (v : Variables) (fresh : List String) : Variables where
  entries := v.entries ++ fresh.zipIdx v.storage.length
  storage := v.storage ++ List.replicate fresh.length 0.0

@[simp]
theorem extend_nil (v : Variables) : v.extend [] = v := by
  simp [extend]

/-- Names may be added in parts. -/
theorem extend_append (v : Variables) (fresh fresh' : List String) :
    v.extend (fresh ++ fresh') = (v.extend fresh).extend fresh' := by
  simp [extend, List.zipIdx_append, List.replicate_append_replicate]

@[simp]
theorem names_extend (v : Variables) (fresh : List String) :
    (v.extend fresh).names = v.names ++ fresh := by
  simp [extend, names, List.zipIdx_map_fst]

/-- Adding names leaves the slots of others as they are. -/
theorem lookup_extend (h : v.lookup x = some slot) : (v.extend fresh).lookup x = some slot := by
  rw [lookup, extend, List.lookup_append, show v.entries.lookup x = some slot from h]
  rfl

/-- A name that is found in an extended table was found before, or has a new cell. -/
theorem lookup_of_extend (h : (v.extend fresh).lookup x = some slot) :
    v.lookup x = some slot ∨ v.storage.length ≤ slot := by
  rcases hx : v.lookup x with - | slot'
  · right
    rcases List.mem_append.1 (mem_entries_of_lookup h) with hmem | hmem
    · exact absurd (List.mem_map_of_mem hmem) (lookup_eq_none_iff.1 hx)
    · exact (List.mem_zipIdx hmem).1
  · left
    rw [lookup_extend hx] at h
    exact h

/-- Declaring a known name gives its slot and changes nothing. -/
theorem declare_of_mem (h : v.lookup x = some slot) : v.declare x = (slot, v) := by
  rw [declare, h]

/-- A name that is not known yet goes to the end of the table. -/
theorem declare_of_notMem (h : x ∉ v.names) : v.declare x = (v.storage.length, v.extend [x]) := by
  rw [declare, lookup_eq_none_iff.2 h]
  rfl

/-- A new name gets the first slot behind all cells. -/
theorem lookup_extend_singleton (h : x ∉ v.names) :
    (v.extend [x]).lookup x = some v.storage.length := by
  rw [lookup, extend, List.lookup_append, show v.entries.lookup x = none from
    lookup_eq_none_iff.2 h]
  simp

/-- Whatever was declared can be looked up. -/
theorem lookup_declare_self (v : Variables) (x : String) :
    (v.declare x).2.lookup x = some (v.declare x).1 := by
  by_cases hx : x ∈ v.names
  · obtain ⟨slot, hslot⟩ := exists_lookup hx
    rw [declare_of_mem hslot]
    exact hslot
  · rw [declare_of_notMem hx]
    exact lookup_extend_singleton hx

/-- Declaring a name does not touch the others. -/
theorem lookup_declare_of_ne {y : String} (hne : y ≠ x) :
    (v.declare x).2.lookup y = v.lookup y := by
  by_cases hx : x ∈ v.names
  · obtain ⟨slot, hslot⟩ := exists_lookup hx
    rw [declare_of_mem hslot]
  · have hnew : ([x].zipIdx v.storage.length).lookup y = none := by
      simp [List.lookup_cons, beq_false_of_ne hne]
    rw [declare_of_notMem hx, lookup, extend, List.lookup_append, hnew, Option.or_none, lookup]

/-! ### Forgetting names -/

/-- Forgetting names that are all known, each of them once, takes them out of the table. -/
theorem forgetAll_eq {names : List String} (hnodup : names.Nodup) (v : Variables)
    (hmem : ∀ x ∈ names, x ∈ v.names) :
    forgetAll names v = (none, { v with entries := v.entries.filter fun e ↦ e.1 ∉ names }) := by
  induction names generalizing v with
  | nil => simp [forgetAll]
  | cons x names ih =>
    obtain ⟨hx, hnodup⟩ := List.nodup_cons.1 hnodup
    have hcontains : v.contains x = true := contains_iff_mem_names.2 (hmem x List.mem_cons_self)
    set w : Variables := { v with entries := v.entries.filter fun e ↦ e.1 != x } with hw
    -- the other names are still known once `x` is forgotten
    have hrest : ∀ y ∈ names, y ∈ w.names := by
      intro y hy
      obtain ⟨p, hp, rfl⟩ := List.mem_map.1 (hmem y (List.mem_cons_of_mem _ hy))
      refine List.mem_map.2 ⟨p, List.mem_filter.2 ⟨hp, ?_⟩, rfl⟩
      exact bne_iff_ne.2 fun heq ↦ hx (heq ▸ hy)
    rw [forgetAll, forget?, if_pos hcontains]
    show forgetAll names w = _
    rw [ih hnodup w hrest, hw]
    simp only [List.filter_filter, List.mem_cons, not_or, Prod.mk.injEq, true_and]
    congr 1
    refine List.filter_congr fun p _ ↦ ?_
    simp [Bool.and_comm, bne, beq_eq_decide]

/-- Forgetting a name leaves the slots of the others. -/
theorem lookup_filter (v : Variables) (x y : String) :
    ({ v with entries := v.entries.filter fun p ↦ p.1 != y } : Variables).lookup x =
      if x = y then none else v.lookup x := by
  simp only [lookup]
  induction v.entries with
  | nil => simp
  | cons p entries ih =>
    obtain ⟨z, slot⟩ := p
    by_cases hz : z = y <;> by_cases hx : x = z <;> grind

/-- The table with further cells, which no name has. -/
def spare (v : Variables) (k : Nat) : Variables :=
  { v with storage := v.storage ++ List.replicate k 0.0 }

/-- Forgetting the names that were added gives back the entries from before. -/
theorem forgetAll_extend (hnodup : fresh.Nodup) (hfresh : ∀ x ∈ fresh, x ∉ v.names) :
    forgetAll fresh (v.extend fresh) = (none, v.spare fresh.length) := by
  rw [forgetAll_eq hnodup (v.extend fresh) fun x hx ↦ by simp [hx], spare]
  congr 2
  have hold : v.entries.filter (fun e ↦ e.1 ∉ fresh) = v.entries :=
    List.filter_eq_self.2 fun p hp ↦
      decide_eq_true fun hmem ↦ hfresh _ hmem (List.mem_map_of_mem hp)
  have hnew : (fresh.zipIdx v.storage.length).filter (fun e ↦ e.1 ∉ fresh) = [] := by
    rw [List.filter_eq_nil_iff]
    intro p hp
    have : p.1 ∈ fresh := by
      rw [← List.zipIdx_map_fst v.storage.length fresh]
      exact List.mem_map_of_mem hp
    simpa using this
  show (v.entries ++ fresh.zipIdx v.storage.length).filter _ = v.entries
  rw [List.filter_append, hold, hnew, List.append_nil]

/-- The new cells hold what is read outside of the storage, so that no cell seems to change. -/
theorem read_spare (v : Variables) (k : Nat) (slot : Slot) :
    (v.spare k).storage.read slot = v.storage.read slot := by
  simp only [spare, Storage.read]
  by_cases h : slot < v.storage.length
  · rw [List.getElem?_append_left h]
  · rw [List.getElem?_append_right (Nat.le_of_not_lt h),
      List.getElem?_eq_none (Nat.le_of_not_lt h), List.getElem?_replicate]
    split <;> rfl

/-- New cells do not change what is read. -/
theorem read_extend (v : Variables) (fresh : List String) (slot : Slot) :
    (v.extend fresh).storage.read slot = v.storage.read slot :=
  v.read_spare fresh.length slot

/-- Nor does a declaration. -/
theorem read_declare (v : Variables) (x : String) (slot : Slot) :
    (v.declare x).2.storage.read slot = v.storage.read slot := by
  by_cases hx : x ∈ v.names
  · obtain ⟨slot, hslot⟩ := exists_lookup hx
    rw [declare_of_mem hslot]
  · rw [declare_of_notMem hx]
    exact v.read_extend [x] slot

/-- The values of names. A name that is not declared counts as zero. -/
def store (v : Variables) (x : String) : Float :=
  (v.get? x).getD 0.0

/-- A name has what is in its cell. -/
theorem store_of_lookup (h : v.lookup x = some slot) : v.store x = v.storage.read slot := by
  simp [store, get?, h]

/-- A name that is not declared counts as zero. -/
theorem store_of_lookup_eq_none (h : v.lookup x = none) : v.store x = 0.0 := by
  simp [store, get?, h]

/-- New names are declared with the value zero, which is what they counted as before. -/
theorem store_extend (v : Variables) (fresh : List String) : (v.extend fresh).store = v.store := by
  funext x
  rcases hx : v.lookup x with - | slot
  · rw [store_of_lookup_eq_none hx]
    rcases hx' : (v.extend fresh).lookup x with - | slot
    · exact store_of_lookup_eq_none hx'
    · have hnew : (x, slot) ∈ fresh.zipIdx v.storage.length := by
        rcases List.mem_append.1 (mem_entries_of_lookup hx') with hmem | hmem
        · exact absurd (List.mem_map_of_mem hmem) (lookup_eq_none_iff.1 hx)
        · exact hmem
      have hle : v.storage.length ≤ slot := (List.mem_zipIdx hnew).1
      rw [store_of_lookup hx', read_extend, Storage.read, List.getElem?_eq_none hle]
      rfl
  · rw [store_of_lookup hx, store_of_lookup (lookup_extend hx), read_extend]

/-! ### Soundness -/

/-- Every name has one slot, which is no other name's and lies inside the storage. -/
structure Sound (v : Variables) : Prop where
  names_nodup : v.names.Nodup
  slots_nodup : (v.entries.map (·.2)).Nodup
  slots_lt : ∀ p ∈ v.entries, p.2 < v.storage.length

theorem sound_empty : empty.Sound where
  names_nodup := List.nodup_nil
  slots_nodup := List.nodup_nil
  slots_lt := fun _ hp ↦ absurd hp List.not_mem_nil

/-- Adding names keeps a table sound, if they are new and no two are the same. -/
theorem Sound.extend (hv : v.Sound) (hnodup : fresh.Nodup) (hfresh : ∀ x ∈ fresh, x ∉ v.names) :
    (v.extend fresh).Sound where
  names_nodup := by
    rw [names_extend]
    exact List.nodup_append.2 ⟨hv.names_nodup, hnodup, fun x hx y hy hxy ↦ hfresh y hy (hxy ▸ hx)⟩
  slots_nodup := by
    rw [Variables.extend, List.map_append, List.nodup_append]
    have hnew : (fresh.zipIdx v.storage.length).map (·.2) =
        List.range' v.storage.length fresh.length := List.zipIdx_map_snd _ _
    refine ⟨hv.slots_nodup, hnew ▸ List.nodup_range', ?_⟩
    rintro s hs s' hs' rfl
    obtain ⟨p, hp, rfl⟩ := List.mem_map.1 hs
    rw [hnew, List.mem_range'_1] at hs'
    exact absurd (hv.slots_lt p hp) (Nat.not_lt.2 hs'.1)
  slots_lt := by
    intro p hp
    simp only [Variables.extend, List.length_append, List.length_replicate]
    rcases List.mem_append.1 hp with hp | hp
    · exact Nat.lt_add_right _ (hv.slots_lt p hp)
    · have hs : p.2 ∈ (fresh.zipIdx v.storage.length).map (·.2) := List.mem_map_of_mem hp
      rw [List.zipIdx_map_snd, List.mem_range'_1] at hs
      exact hs.2

/-- So does declaring one. -/
theorem Sound.declare (hv : v.Sound) (x : String) : (v.declare x).2.Sound := by
  by_cases hx : x ∈ v.names
  · obtain ⟨slot, hslot⟩ := exists_lookup hx
    rw [declare_of_mem hslot]
    exact hv
  · rw [declare_of_notMem hx]
    exact hv.extend (List.nodup_singleton x) (by simpa using hx)

/-- Only the number of cells matters for soundness, not what they hold. -/
theorem Sound.withStorage (hv : v.Sound) {s : Storage} (hs : v.storage.length ≤ s.length) :
    ({ v with storage := s } : Variables).Sound where
  names_nodup := hv.names_nodup
  slots_nodup := hv.slots_nodup
  slots_lt := fun p hp ↦ Nat.lt_of_lt_of_le (hv.slots_lt p hp) hs

/-- Leaving out entries keeps a table sound. -/
theorem Sound.filter (hv : v.Sound) (p : String × Slot → Bool) :
    ({ v with entries := v.entries.filter p } : Variables).Sound where
  names_nodup := hv.names_nodup.sublist (List.filter_sublist.map _)
  slots_nodup := hv.slots_nodup.sublist (List.filter_sublist.map _)
  slots_lt := fun q hq ↦ hv.slots_lt q (List.mem_of_mem_filter hq)

/-- Names that share a slot are the same name. -/
theorem Sound.eq_of_lookup (hv : v.Sound) {y : String} (hx : v.lookup x = some slot)
    (hy : v.lookup y = some slot) : x = y := by
  have h := List.inj_on_of_nodup_map hv.slots_nodup (mem_entries_of_lookup hx)
    (mem_entries_of_lookup hy) rfl
  exact congrArg Prod.fst h

/-- An entry is what looking up its name finds. -/
theorem Sound.lookup_of_mem (hv : v.Sound) (h : (x, slot) ∈ v.entries) :
    v.lookup x = some slot := by
  obtain ⟨slot', hslot'⟩ := exists_lookup (List.mem_map_of_mem h : x ∈ v.names)
  have heq := List.inj_on_of_nodup_map hv.names_nodup (mem_entries_of_lookup hslot') h rfl
  have hslot : slot' = slot := congrArg Prod.snd heq
  exact hslot ▸ hslot'

end Reckoner.Variables
