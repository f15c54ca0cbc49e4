/-
`NameMap.lean` -- finite maps keyed by names.

A map is its list of entries in strictly increasing order of the names, and the
order is a field of the type. So a map has one representation: two maps that
answer every look-up alike are equal (`ext_get?`), whatever insertions built them,
and nothing downstream has to sort before it prints. Names are compared by code
point, which for UTF-8 is also the order of their bytes.

`put` walks the list once and replaces on collision. That single pass is why
`get?_insert` needs no hypothesis on the list it walks.
-/

set_option autoImplicit false

namespace MiniPascal

/-- A finite map from names to values: its entries, by increasing name. -/
structure NameMap (α : Type) where
  entries : List (String × α)
  increasing : entries.Pairwise (fun a b => a.1 < b.1)

namespace NameMap

variable {α : Type}

/-- The map without entries. -/
def empty : NameMap α := ⟨[], .nil⟩

instance : EmptyCollection (NameMap α) := ⟨empty⟩
instance : Inhabited (NameMap α) := ⟨empty⟩

/-- How many names the map binds. -/
def size (m : NameMap α) : Nat := m.entries.length

/-- The value bound to `name`. -/
def get? (m : NameMap α) (name : String) : Option α := m.entries.lookup name

/-- Is `name` bound? -/
def contains (m : NameMap α) (name : String) : Bool := (m.get? name).isSome

/-- Puts `(name, value)` at its place in an increasing list, in the place of an
entry that already has the name. -/
def put (name : String) (value : α) : List (String × α) → List (String × α)
  | [] => [(name, value)]
  | entry :: rest =>
    if name < entry.1 then (name, value) :: entry :: rest
    else if name = entry.1 then (name, value) :: rest
    else entry :: put name value rest

/-! ## Insertion keeps the order -/

theorem mem_put {name : String} {value : α} {entry : String × α} {l : List (String × α)}
    (h : entry ∈ put name value l) : entry = (name, value) ∨ entry ∈ l := by
  induction l with
  | nil => simpa [put] using h
  | cons head tail ih =>
    unfold put at h
    split at h
    · exact List.mem_cons.mp h
    · split at h
      · exact (List.mem_cons.mp h).imp_right (List.mem_cons_of_mem _)
      · rcases List.mem_cons.mp h with rfl | hmem
        · exact .inr List.mem_cons_self
        · exact (ih hmem).imp_right (List.mem_cons_of_mem _)

theorem increasing_put (name : String) (value : α) {l : List (String × α)}
    (h : l.Pairwise (fun a b => a.1 < b.1)) :
    (put name value l).Pairwise (fun a b => a.1 < b.1) := by
  induction l with
  | nil => simp [put]
  | cons head tail ih =>
    have ⟨hhead, htail⟩ := List.pairwise_cons.mp h
    unfold put
    split
    · next hlt =>
      refine List.pairwise_cons.mpr ⟨fun e he => ?_, h⟩
      rcases List.mem_cons.mp he with rfl | hmem
      · exact hlt
      · exact String.lt_trans hlt (hhead e hmem)
    · split
      · next heq => exact List.pairwise_cons.mpr ⟨fun e he => heq ▸ hhead e he, htail⟩
      · next hlt hne =>
        refine List.pairwise_cons.mpr ⟨fun e he => ?_, ih htail⟩
        rcases mem_put he with rfl | hmem
        · exact Std.lt_of_le_of_ne (String.not_lt.mp hlt) (Ne.symm hne)
        · exact hhead e hmem

/-- Binds `name` to `value`, replacing any earlier value. -/
def insert (m : NameMap α) (name : String) (value : α) : NameMap α :=
  ⟨put name value m.entries, increasing_put name value m.increasing⟩

/-! ## Look-up after insertion -/

theorem lookup_put (name other : String) (value : α) (l : List (String × α)) :
    (put name value l).lookup other = if other = name then some value else l.lookup other := by
  induction l with
  | nil => by_cases h : other = name <;> simp [put, List.lookup_cons, h, beq_eq_false_iff_ne.mpr]
  | cons head tail ih =>
    obtain ⟨key, kept⟩ := head
    by_cases h : other = name
    · subst h
      unfold put
      by_cases hlt : other < key
      · simp [hlt]
      · by_cases heq : other = key
        · simp [heq]
        · simp [hlt, heq, List.lookup_cons, beq_eq_false_iff_ne.mpr heq, ih]
    · have hne : (other == name) = false := beq_eq_false_iff_ne.mpr h
      unfold put
      by_cases hlt : name < key
      · simp [hlt, h, hne, List.lookup_cons]
      · by_cases heq : name = key
        · subst heq
          simp [h, hne, List.lookup_cons]
        · simp [hlt, heq, h, List.lookup_cons, ih]

/-- Insertion changes the answer for its own name and for no other. -/
theorem get?_insert (m : NameMap α) (name other : String) (value : α) :
    (m.insert name value).get? other = if other = name then some value else m.get? other :=
  lookup_put name other value m.entries

@[simp] theorem get?_empty (name : String) : (empty : NameMap α).get? name = none := rfl

/-! ## Look-ups determine the map -/

theorem lookup_eq_none_of_lt {name : String} {l : List (String × α)}
    (h : ∀ entry ∈ l, name < entry.1) : l.lookup name = none := by
  induction l with
  | nil => rfl
  | cons head tail ih =>
    have hne : name ≠ head.1 := fun e => String.lt_irrefl _ (e ▸ h head List.mem_cons_self)
    rw [List.lookup_cons, beq_eq_false_iff_ne.mpr hne]
    exact ih fun entry he => h entry (List.mem_cons_of_mem _ he)

private theorem eq_of_lookup_eq {l₁ l₂ : List (String × α)}
    (h₁ : l₁.Pairwise (fun a b => a.1 < b.1)) (h₂ : l₂.Pairwise (fun a b => a.1 < b.1))
    (h : ∀ name, l₁.lookup name = l₂.lookup name) : l₁ = l₂ := by
  induction l₁ generalizing l₂ with
  | nil =>
    cases l₂ with
    | nil => rfl
    | cons head tail => obtain ⟨key, value⟩ := head; simpa using h key
  | cons head tail ih =>
    cases l₂ with
    | nil => obtain ⟨key, value⟩ := head; simpa using h key
    | cons head' tail' =>
      obtain ⟨key, value⟩ := head
      obtain ⟨key', value'⟩ := head'
      have ⟨hhead, htail⟩ := List.pairwise_cons.mp h₁
      have ⟨hhead', htail'⟩ := List.pairwise_cons.mp h₂
      -- A list whose first name is smaller knows a name that the other one does not.
      have hkey : key = key' := by
        rcases Std.lt_trichotomy key key' with hlt | heq | hgt
        · have hnone : ((key', value') :: tail').lookup key = none :=
            lookup_eq_none_of_lt fun e he => (List.mem_cons.mp he).elim (· ▸ hlt)
              fun hmem => String.lt_trans hlt (hhead' e hmem)
          simp [← h key] at hnone
        · exact heq
        · have hnone : ((key, value) :: tail).lookup key' = none :=
            lookup_eq_none_of_lt fun e he => (List.mem_cons.mp he).elim (· ▸ hgt)
              fun hmem => String.lt_trans hgt (hhead e hmem)
          simp [h key'] at hnone
      subst hkey
      have hvalue : value = value' := by simpa [List.lookup_cons] using h key
      have hrest : tail = tail' := ih htail htail' fun name => by
        by_cases hname : name = key
        · rw [hname, lookup_eq_none_of_lt hhead, lookup_eq_none_of_lt hhead']
        · simpa [List.lookup_cons, beq_eq_false_iff_ne.mpr hname] using h name
      rw [hvalue, hrest]

/-- **One representation.** Maps that answer every look-up alike are the same map. -/
theorem ext_get? {m n : NameMap α} (h : ∀ name, m.get? name = n.get? name) : m = n := by
  have heq : m.entries = n.entries := eq_of_lookup_eq m.increasing n.increasing h
  cases m
  cases n
  cases heq
  rfl

end NameMap

end MiniPascal
