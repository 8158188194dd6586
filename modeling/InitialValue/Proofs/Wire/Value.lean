import InitialValue.Proofs.Binary64.Whole
import InitialValue.Wire.Value

/-! Parts of values on their way out and back. An optional part comes back when it is not
written as null, and a list when its items do. Numbers are the only parts that may not
come back: one that is not finite has no spelling. What is read from a value in which
every number is finite holds no other numbers, since counts are finite too. -/

namespace InitialValue.Wire.Value

variable {α β : Type} {read : Value → Option α} {write : α → Value} {v : Value} {x : Float}

/-! ### Items and fields -/

theorem mapM_eq_some_iff {f : α → Option β} {as : List α} {bs : List β} :
    as.mapM f = some bs ↔ as.map f = bs.map some := by
  induction as generalizing bs with
  | nil => cases bs <;> simp
  | cons a as ih =>
    rw [List.mapM_cons, Option.bind_eq_bind, Option.bind_eq_some_iff]
    simp only [Option.bind_eq_bind, Option.bind_eq_some_iff, Option.pure_def, Option.some.injEq, ih]
    cases bs <;> simp

/-- The fields of a record are found one by one. -/
theorem fields?_record_eq_some_iff {fields : List (String × Value)} {spellings : List (List String)}
    {fs : List (Option Value)} :
    fields? spellings (.record fields) = some fs ↔ spellings.map (field? fields) = fs.map some :=
  mapM_eq_some_iff

/-- A list is read back when its items are. -/
theorem asList?_list_map {items : List α} (h : ∀ a ∈ items, read (write a) = some a) :
    asList? read (.list (items.map write)) = some items := by
  refine mapM_eq_some_iff.mpr ?_
  rw [List.map_map]
  exact List.map_congr_left h

theorem optional_some {a : α} (hread : read v = some a) (hnull : v ≠ .null) :
    Value.optional read (some v) = some (some a) := by
  cases v with
  | null => exact absurd rfl hnull
  | bool | count | number | text | list | record => simp [Value.optional, hread]

/-- An option is read back when its value is, and is not written as null. -/
theorem optional_ofOption {o : Option α} (hread : ∀ a ∈ o, read (write a) = some a)
    (hnull : ∀ a ∈ o, write a ≠ .null) :
    Value.optional read (some (ofOption write o)) = some o := by
  cases o with
  | none => rfl
  | some a => exact optional_some (hread a rfl) (hnull a rfl)

/-- What an optional field holds was read from it. -/
theorem exists_of_optional {field : Option Value} {a : α}
    (h : Value.optional read field = some (some a)) : ∃ v, field = some v ∧ read v = some a := by
  cases field with
  | none => cases h
  | some v =>
    refine ⟨v, rfl, ?_⟩
    cases v with
    | null => cases h
    | bool | count | number | text | list | record => simpa [Value.optional] using h

/-! ### Finite numbers -/

theorem asNumber?_ofFloat (hx : x.isFinite = true) : asNumber? (ofFloat x) = some x := by
  rw [ofFloat, if_pos hx]
  rfl

theorem ofFloat_ne_null (hx : x.isFinite = true) : ofFloat x ≠ .null := by
  rw [ofFloat, if_pos hx]
  exact nofun

/-- Every number in the value is finite. -/
inductive AllFinite : Value → Prop
  | null : AllFinite .null
  | bool (b : Bool) : AllFinite (.bool b)
  | count (n : UInt64) : AllFinite (.count n)
  | number {x : Float} : x.isFinite = true → AllFinite (.number x)
  | text (s : String) : AllFinite (.text s)
  | list {items : List Value} : (∀ v ∈ items, AllFinite v) → AllFinite (.list items)
  | record {fields : List (String × Value)} : (∀ f ∈ fields, AllFinite f.2) →
    AllFinite (.record fields)

attribute [simp] AllFinite.null AllFinite.bool AllFinite.count AllFinite.text

@[simp] theorem allFinite_list_iff {items : List Value} :
    AllFinite (.list items) ↔ ∀ v ∈ items, AllFinite v :=
  ⟨fun | .list h => h, .list⟩

@[simp] theorem allFinite_record_iff {fields : List (String × Value)} :
    AllFinite (.record fields) ↔ ∀ f ∈ fields, AllFinite f.2 :=
  ⟨fun | .record h => h, .record⟩

/-- Whatever the number is, none but a finite one is written. -/
@[simp] theorem allFinite_ofFloat (x : Float) : AllFinite (ofFloat x) := by
  unfold ofFloat
  split
  · next hx => exact .number hx
  · exact .null

theorem allFinite_ofOption {o : Option α} (h : ∀ a, AllFinite (write a)) :
    AllFinite (ofOption write o) := by
  cases o with
  | none => exact .null
  | some a => exact h a

theorem isFinite_of_asNumber? (hv : v.AllFinite) (hx : asNumber? v = some x) :
    x.isFinite = true := by
  cases hv with
  | number hfin =>
    cases hx
    exact hfin
  | count n =>
    cases hx
    exact Binary64.isFinite_toFloat n
  | null | bool | text | list | record => cases hx

/-- Every number in the field is finite, if it is there. -/
def FieldFinite (field : Option Value) : Prop := ∀ v ∈ field, v.AllFinite

theorem isFinite_of_required {field : Option Value} (hf : FieldFinite field)
    (hx : required asNumber? field = some x) : x.isFinite = true := by
  obtain ⟨v, hv, hx⟩ := Option.bind_eq_some_iff.mp hx
  exact isFinite_of_asNumber? (hf v hv) hx

theorem isFinite_of_withDefault {field : Option Value} {default : Float} (hf : FieldFinite field)
    (hd : default.isFinite = true) (hx : withDefault default asNumber? field = some x) :
    x.isFinite = true := by
  cases field with
  | none =>
    cases hx
    exact hd
  | some v => exact isFinite_of_asNumber? (hf v rfl) hx

theorem fieldFinite_of_field? {fields : List (String × Value)} {names : List String}
    {field : Option Value} (hv : AllFinite (.record fields))
    (h : field? fields names = some field) : FieldFinite field := by
  unfold field? at h
  split at h
  · cases h
    exact nofun
  · next name v hone =>
    cases h
    rintro _ ⟨⟩
    have hmem : (name, v) ∈ fields := List.mem_of_mem_filter (hone ▸ List.mem_singleton_self _)
    exact allFinite_record_iff.mp hv _ hmem
  · cases h

/-- The fields of a structure hold the numbers of the value. -/
theorem fieldFinite_of_fields? {spellings : List (List String)} {fs : List (Option Value)}
    (hv : v.AllFinite) (h : v.fields? spellings = some fs) : ∀ f ∈ fs, FieldFinite f := by
  intro f hf
  cases hv with
  | record hall =>
    have hmem : some f ∈ fs.map some := List.mem_map_of_mem hf
    rw [← fields?_record_eq_some_iff.mp h] at hmem
    obtain ⟨names, -, hfield⟩ := List.mem_map.mp hmem
    exact fieldFinite_of_field? (.record hall) hfield
  | list hall =>
    simp only [fields?] at h
    split at h
    · cases h
      obtain hf | hf := List.mem_append.mp hf
      · obtain ⟨w, hw, rfl⟩ := List.mem_map.mp hf
        rintro _ ⟨⟩
        exact hall w hw
      · rw [List.eq_of_mem_replicate hf]
        exact nofun
    · cases h
  | null | bool | count | number | text => cases h

/-- What holds of every item that can be read holds of all items of a list. -/
theorem forall_of_asList? {items : List α} {P : α → Prop} (hv : v.AllFinite)
    (hP : ∀ w a, w.AllFinite → read w = some a → P a) (h : asList? read v = some items) :
    ∀ a ∈ items, P a := by
  intro a ha
  cases hv with
  | list hall =>
    have hmem : some a ∈ items.map some := List.mem_map_of_mem ha
    rw [← mapM_eq_some_iff.mp h] at hmem
    obtain ⟨w, hw, hread⟩ := List.mem_map.mp hmem
    exact hP w a (hall w hw) hread
  | null | bool | count | number | text | record => cases h

end InitialValue.Wire.Value
