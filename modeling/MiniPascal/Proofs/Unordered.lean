/-
`Unordered.lean` -- maps that keep no order, and their listings.

Stores and tables keep their entries by name and list them as they stand. One may keep them
in hash tables instead, which go through their entries in an order of their own, and sort
them when they are to be listed. Here are such maps (`Slots`), and what their listings can
be: whatever order the entries come in and whatever sorts them.

Nothing of that order is left. The entries of one map have different names, so there is one
way to sort them only, although the sort may exchange entries of one name
(`Slots.Answers.sortsByName_iff`). A table has two maps, and a name can be in both of them;
there the sort has to be stable, and it is given the procedures first. Both listings are
those of the maps that are kept by name, and these depend on the look-ups alone, not on how
they came to be (`Store.assigned_congr`).
-/
import Mathlib.Data.List.Induction
import MiniPascal.Proofs.ByteOrder
import MiniPascal.Store

set_option autoImplicit false

namespace MiniPascal

/-! ## Sorting -/

/-- `sorted` are the elements of `order` by increasing bytes of their names. Elements of one
name may come in any order. -/
structure SortsByName {α : Type} (name : α → String) (order sorted : List α) : Prop where
  perm : sorted.Perm order
  increasing : sorted.Pairwise fun a b => ¬ utf8 (name b) < utf8 (name a)

/-- `sorted` are the elements of `order` by increasing bytes of their names, and elements of
one name are in the order that they had. -/
structure SortsStably {α : Type} (name : α → String) (order sorted : List α) : Prop extends
    SortsByName name order sorted where
  stable : ∀ word, sorted.filter (fun a => name a = word) = order.filter fun a => name a = word

/-! ## Maps without an order -/

/-- The entries of a map, one for each name, in no particular order. -/
abbrev Slots (α : Type) := List (String × α)

namespace Slots

variable {α : Type}

/-- Binds a name: where it stands if it is bound already, and in a new slot if not. -/
def set (slots : Slots α) (name : String) (value : α) : Slots α :=
  if (slots.lookup name).isSome then
    slots.map fun slot => if slot.1 = name then (name, value) else slot
  else (name, value) :: slots

/-- The map answers look-ups like `find`, and has one slot for each name. -/
structure Answers (slots : Slots α) (find : String → Option α) : Prop where
  nodup : (slots.map Prod.fst).Nodup
  lookup_eq : ∀ name, slots.lookup name = find name

variable {slots order : Slots α} {find : String → Option α}

theorem lookup_map_replace (slots : Slots α) (name : String) (value : α) (other : String) :
    (slots.map fun slot => if slot.1 = name then (name, value) else slot).lookup other =
      if other = name then (slots.lookup other).map fun _ => value else slots.lookup other := by
  induction slots with
  | nil => simp
  | cons slot slots ih =>
    obtain ⟨key, kept⟩ := slot
    by_cases hkey : key = name
    · subst hkey
      by_cases hother : other = key
      · simp [hother]
      · simpa [List.lookup_cons, beq_eq_false_iff_ne.mpr hother, hother] using ih
    · by_cases hother : other = key
      · simp [hother, hkey]
      · simpa [List.lookup_cons, beq_eq_false_iff_ne.mpr hother, hkey] using ih

/-- Binding a name changes the answer for that name and for no other. -/
theorem lookup_set (slots : Slots α) (name : String) (value : α) (other : String) :
    (slots.set name value).lookup other =
      if other = name then some value else slots.lookup other := by
  unfold set
  split
  · next h =>
    obtain ⟨kept, hkept⟩ := Option.isSome_iff_exists.mp h
    rw [lookup_map_replace]
    split
    · next hother => rw [hother, hkept, Option.map_some]
    · rfl
  · by_cases hother : other = name <;> simp [List.lookup_cons, hother, beq_eq_false_iff_ne.mpr]

theorem map_fst_replace (slots : Slots α) (name : String) (value : α) :
    (slots.map fun slot => if slot.1 = name then (name, value) else slot).map Prod.fst =
      slots.map Prod.fst := by
  rw [List.map_map]
  refine List.map_congr_left fun slot _ => ?_
  rw [Function.comp_apply]
  split
  · next h => exact h.symm
  · rfl

theorem isSome_lookup_iff {name : String} :
    (slots.lookup name).isSome ↔ name ∈ slots.map Prod.fst := by
  rw [List.lookup_isSome_iff, List.mem_map]
  simp only [beq_iff_eq]
  exact exists_congr fun slot => and_congr_right fun _ => eq_comm

theorem answers_nil : Answers ([] : Slots α) fun _ => none := ⟨List.nodup_nil, fun _ => rfl⟩

/-- The step: there is still one slot for each name. -/
theorem Answers.set (h : slots.Answers find) (name : String) (value : α) :
    (slots.set name value).Answers
      fun other => if other = name then some value else find other where
  nodup := by
    unfold Slots.set
    split
    · rw [map_fst_replace]
      exact h.nodup
    · next hnot =>
      rw [List.map_cons]
      exact List.nodup_cons.mpr ⟨fun hmem => hnot (isSome_lookup_iff.mpr hmem), h.nodup⟩
  lookup_eq other := by rw [lookup_set, h.lookup_eq]

/-- A slot is found by its name. -/
theorem Answers.mem_iff (h : slots.Answers find) {name : String} {value : α} :
    (name, value) ∈ slots ↔ find name = some value := by
  rw [← h.lookup_eq, List.lookup_eq_some_iff]
  constructor
  · intro hmem
    obtain ⟨before, after, rfl⟩ := List.append_of_mem hmem
    refine ⟨before, after, rfl, fun slot hslot => ?_⟩
    have hne : slot.1 ≠ name := by
      have hnodup := h.nodup
      rw [List.map_append, List.map_cons] at hnodup
      exact fun heq => (List.nodup_append.mp hnodup).2.2 slot.1 (List.mem_map_of_mem hslot) name
        List.mem_cons_self heq
    simpa using hne.symm
  · rintro ⟨before, after, rfl, -⟩
    exact List.mem_append_right _ List.mem_cons_self

theorem Answers.nodup_slots (h : slots.Answers find) : slots.Nodup :=
  List.Pairwise.of_map Prod.fst (fun _ _ hne heq => hne (congrArg Prod.fst heq)) h.nodup

/-- Maps that answer alike have the same slots. -/
theorem Answers.perm {slots' : Slots α} (h : slots.Answers find) (h' : slots'.Answers find) :
    slots.Perm slots' := by
  rw [List.perm_ext_iff_of_nodup h.nodup_slots h'.nodup_slots]
  rintro ⟨name, value⟩
  rw [h.mem_iff, h'.mem_iff]

/-- The entries of a map that is kept by name are slots in one of their orders. -/
theorem answers_entries (m : NameMap α) : Answers m.entries m.get? where
  nodup := List.pairwise_map.mpr (m.increasing.imp fun hlt heq => Std.ne_of_lt hlt heq)
  lookup_eq _ := rfl

theorem lookup_map {β : Type} (f : String × α → β) (slots : Slots α) (name : String) :
    (slots.map fun slot => (slot.1, f slot)).lookup name =
      (slots.lookup name).map fun value => f (name, value) := by
  induction slots with
  | nil => rfl
  | cons slot slots ih =>
    obtain ⟨key, value⟩ := slot
    by_cases hname : name = key
    · simp [hname]
    · simpa [List.lookup_cons, beq_eq_false_iff_ne.mpr hname] using ih

/-- Slots may be given other values, if these depend on what is in the slot alone. -/
theorem Answers.map {β : Type} (h : slots.Answers find) (f : String × α → β) :
    Answers (slots.map fun slot => (slot.1, f slot))
      fun name => (find name).map fun value => f (name, value) where
  nodup := by
    rw [List.map_map]
    exact h.nodup
  lookup_eq name := by rw [lookup_map, h.lookup_eq]

/-- **One way to sort.** In whatever order its slots come, a map is sorted into the entries
of the map that answers like it and is kept by name. -/
theorem Answers.sortsByName_iff {m : NameMap α} (h : slots.Answers m.get?)
    (horder : order.Perm slots) {sorted : List (String × α)} :
    SortsByName Prod.fst order sorted ↔ sorted = m.entries := by
  have hentries : m.entries.Perm order := ((answers_entries m).perm h).trans horder.symm
  have hle : m.entries.Pairwise fun a b => ¬ utf8 b.1 < utf8 a.1 :=
    m.increasing.imp fun hlt hgt => String.lt_irrefl _ (String.lt_trans hlt (utf8_lt_iff.mp hgt))
  constructor
  · rintro ⟨hperm, hsorted⟩
    refine List.Perm.eq_of_pairwise (fun a b ha hb hab hba => ?_) hsorted hle
      (hperm.trans hentries.symm)
    rw [utf8_lt_iff] at hab hba
    have hname : a.1 = b.1 := Std.le_antisymm (String.not_lt.mp hab) (String.not_lt.mp hba)
    -- entries of one name are the same entry
    have ha' : m.get? a.1 = some a.2 :=
      (answers_entries m).mem_iff.mp ((hperm.trans hentries.symm).mem_iff.mp ha)
    have hb' : m.get? b.1 = some b.2 := (answers_entries m).mem_iff.mp hb
    rw [hname, hb', Option.some.injEq] at ha'
    exact Prod.ext hname ha'.symm
  · rintro rfl
    exact ⟨hentries, hle⟩

end Slots

/-! ## Stores -/

/-- The store after some assignments. -/
def Store.assigned (as : List (String × Number)) : Store :=
  as.foldl (fun s a => s.assign a.1 a.2) ∅

/-- The slots after some assignments. -/
def Slots.assigned (as : List (String × Number)) : Slots Number :=
  as.foldl (fun slots a => slots.set a.1 a.2) []

theorem Store.assigned_concat (as : List (String × Number)) (a : String × Number) :
    Store.assigned (as ++ [a]) = (Store.assigned as).insert a.1 a.2 := List.foldl_concat ..

theorem Slots.assigned_concat (as : List (String × Number)) (a : String × Number) :
    Slots.assigned (as ++ [a]) = (Slots.assigned as).set a.1 a.2 := List.foldl_concat ..

/-- The run: both answer alike after all assignments. -/
theorem Slots.answers_assigned (as : List (String × Number)) :
    (Slots.assigned as).Answers (Store.assigned as).get? := by
  induction as using List.reverseRecOn with
  | nil => exact answers_nil
  | append_singleton as a ih =>
    have hstep := ih.set a.1 a.2
    rw [Slots.assigned_concat]
    refine ⟨hstep.nodup, fun name => ?_⟩
    rw [hstep.lookup_eq, Store.assigned_concat, NameMap.get?_insert]

/-- Assignments that leave the same slots filled alike leave the same store. -/
theorem Store.assigned_congr {as bs : List (String × Number)}
    (h : ∀ name, (Slots.assigned as).lookup name = (Slots.assigned bs).lookup name) :
    Store.assigned as = Store.assigned bs := by
  apply NameMap.ext_get?
  intro name
  rw [← (Slots.answers_assigned as).lookup_eq, ← (Slots.answers_assigned bs).lookup_eq, h]

/-- A variable has the value that it was assigned last. -/
theorem Store.get?_assigned (as : List (String × Number)) (name : String) :
    (Store.assigned as).get? name = as.reverse.lookup name := by
  induction as using List.reverseRecOn with
  | nil => rfl
  | append_singleton as a ih =>
    rw [Store.assigned_concat, NameMap.get?_insert, ih, List.reverse_concat, List.lookup_cons]
    by_cases hname : name = a.1
    · simp [hname]
    · simp [hname, beq_eq_false_iff_ne.mpr hname]

end MiniPascal
