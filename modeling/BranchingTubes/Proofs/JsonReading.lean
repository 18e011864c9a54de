import BranchingTubes.Json.Value
import BranchingTubes.Proofs.ExactNumbers
import Mathlib

/-!
# Reading parts of JSON values

A number that denotes a finite single exactly is read as this single
(`Json.single?_of_denotesExactly`), and null is not a number.  So a value that is written with such
numbers is read back if its singles are finite, and is not read at all otherwise: this is
`ReadsIfFinite`, which goes through the binding of one part after the other and through lists.

A record has two forms, the array of its values and an object with its fields in any order and
possibly others between them (`Json.RecordForm`).  Both give the same values
(`Json.RecordForm.fields?_eq`).
-/

set_option autoImplicit false

namespace BranchingTubes

namespace Json

/-! ## Numbers -/

/-- A JSON value is a number with or without a minus sign and of some size. -/
inductive IsNumber : Json → Bool → ℝ → Prop
  | integer (value : ℤ) : IsNumber (.integer value) (decide (value < 0)) value.natAbs
  | decimal (value : Decimal) : IsNumber (.decimal value) value.negative value.magnitude

/-- A JSON value denotes exactly a finite single, a zero together with its sign. -/
def DenotesExactly (j : Json) (x : Float32) : Prop :=
  ∃ v, HasValue x v ∧ j.IsNumber (singleSign x) |v|

variable {j : Json} {x : Float32}

/-- A number that denotes a single exactly is read as that single. -/
theorem single?_of_denotesExactly (h : j.DenotesExactly x) : j.single? = some x := by
  obtain ⟨v, hv, hnumber⟩ := h
  have hrank := singleRank_lt hv.isFinite
  have hmagnitude : |v| = BinaryFormat.binary32.value (singleRank x) := by
    rw [hv.unique (hasValue_of_isFinite hv.isFinite), abs_signed,
      abs_of_nonneg (BinaryFormat.value_nonneg _ _)]
  rw [hmagnitude] at hnumber
  generalize hsign : singleSign x = negative at hnumber
  generalize hsize : BinaryFormat.binary32.value (singleRank x) = size at hnumber
  cases hnumber with
  | integer value =>
    have hvalue : (Decimal.ofInt value).magnitude = BinaryFormat.binary32.value (singleRank x) := by
      rw [Decimal.magnitude_ofInt, hsize]
    have hsame : (Decimal.ofInt value).negative = singleSign x := hsign.symm
    simp only [single?]
    split
    · rw [Decimal.toSingle_of_value hrank hvalue, hsame, singleOfRank_singleRank]
    · rw [Decimal.narrow_toDouble hrank hvalue, hsame, singleOfRank_singleRank]
  | decimal value =>
    simp only [single?]
    rw [Decimal.narrow_toDouble hrank hsize.symm, ← hsign, singleOfRank_singleRank]

end Json

/-- A way to write singles: a finite one as a number that denotes it exactly, any other as null. -/
structure WritesExactly (single : Float32 → Json) : Prop where
  finite : ∀ x, x.isFinite = true → (single x).DenotesExactly x
  other : ∀ x, x.isFinite = false → single x = .null

/-- A single is written as a null or as a number, if it is written exactly. -/
theorem WritesExactly.null_or_number {single : Float32 → Json} (h : WritesExactly single)
    (x : Float32) : single x = .null ∨ ∃ negative size, (single x).IsNumber negative size := by
  cases hx : x.isFinite with
  | true =>
    obtain ⟨v, -, hnumber⟩ := h.finite x hx
    exact .inr ⟨_, _, hnumber⟩
  | false => exact .inl (h.other x hx)

/-- Singles are written exactly. -/
theorem writesExactly_ofSingle : WritesExactly Json.ofSingle where
  finite x hx := by
    obtain ⟨d, hd, hsign, hmagnitude⟩ := Decimal.ofSingle?_eq_some hx
    refine ⟨_, hasValue_of_isFinite hx, ?_⟩
    unfold Json.ofSingle
    rw [hd, abs_signed, abs_of_nonneg (BinaryFormat.value_nonneg _ _), ← hsign, ← hmagnitude]
    exact .decimal d
  other x hx := by
    unfold Json.ofSingle
    rw [Decimal.ofSingle?_eq_none hx]

/-! ## Reading on condition that singles are finite -/

section Reading

variable {α β : Type}

/-- A value is read if some singles are finite, and nothing else is read. -/
def ReadsIfFinite (result : Option α) (singles : List Float32) (value : α) : Prop :=
  ∀ a, result = some a ↔ (∀ x ∈ singles, x.isFinite = true) ∧ a = value

/-- A single that is written exactly is read back if it is finite, and refused if not. -/
theorem WritesExactly.reads {single : Float32 → Json} (h : WritesExactly single) (x : Float32) :
    ReadsIfFinite (single x).single? [x] x := by
  intro a
  rw [List.forall_mem_singleton]
  cases hx : x.isFinite with
  | true => simp [Json.single?_of_denotesExactly (h.finite x hx), eq_comm]
  | false => simp [h.other x hx, Json.single?]

namespace ReadsIfFinite

variable {result : Option α} {f : α → Option β} {singles more : List Float32} {value : α}
  {image : β}

/-- A value that is read whatever the singles are is read if they are finite. -/
theorem of_some (value : α) : ReadsIfFinite (some value) [] value := by
  intro a
  rw [Option.some_inj, eq_comm]
  simp

/-- A value that is read, shown by an equation. -/
theorem of_eq (h : result = some value) : ReadsIfFinite result [] value := by
  rw [h]
  exact of_some value

/-- One part is read after the other. -/
theorem bind (h : ReadsIfFinite result singles value) (hf : ReadsIfFinite (f value) more image) :
    ReadsIfFinite (result >>= f) (singles ++ more) image := by
  intro b
  rw [Option.bind_eq_bind, Option.bind_eq_some_iff]
  simp only [h _, List.forall_mem_append]
  constructor
  · rintro ⟨_, ⟨hfinite, rfl⟩, hb⟩
    exact ⟨⟨hfinite, ((hf b).mp hb).1⟩, ((hf b).mp hb).2⟩
  · rintro ⟨⟨hfinite, hmore⟩, hb⟩
    exact ⟨value, ⟨hfinite, rfl⟩, (hf b).mpr ⟨hmore, hb⟩⟩

/-- Reading a value and making another of it depends on the same singles. -/
theorem bind_pure (h : ReadsIfFinite result singles value) (g : α → β) :
    ReadsIfFinite (result >>= fun a => pure (g a)) singles (g value) := by
  have hbind := h.bind (f := fun a => pure (g a)) (of_some (g value))
  rwa [List.append_nil] at hbind

/-- A value that is read may be translated. -/
theorem map (h : ReadsIfFinite result singles value) (g : α → β) :
    ReadsIfFinite (result.map g) singles (g value) := by
  rw [Option.map_eq_bind]
  exact h.bind_pure g

/-- The items of a list are read one after the other. -/
theorem mapM {γ : Type} {item : γ → Option α} {itemSingles : α → List Float32} {values : List α}
    {forms : List γ}
    (h : List.Forall₂ (fun v j => ReadsIfFinite (item j) (itemSingles v) v) values forms) :
    ReadsIfFinite (forms.mapM item) (values.flatMap itemSingles) values := by
  induction h with
  | nil => exact of_some []
  | @cons v j vs js hitem _ ih =>
    rw [List.mapM_cons, List.flatMap_cons]
    exact hitem.bind (ih.bind_pure (List.cons v))

end ReadsIfFinite

end Reading

/-! ## Other parts -/

namespace Json

/-- A character is read back. -/
theorem char?_ofChar (c : Char) : (ofChar c).char? = some c := by
  simp [ofChar, char?]

/-- A 32-bit word is read back. -/
theorem word32?_ofNat (n : UInt32) : (ofNat n.toNat).word32? = some n := by
  simp [word32?, natBelow?, ofNat, n.toNat_lt]

/-- A 64-bit word is read back. -/
theorem word64?_ofNat (n : UInt64) : (ofNat n.toNat).word64? = some n := by
  simp [word64?, natBelow?, ofNat, n.toNat_lt]

/-! ## Records -/

/-- A value is a record with some values under some names: the array of the values, or an object
that has the fields in any order, and maybe others under other names. -/
inductive RecordForm (names : List String) (values : List Json) : Json → Prop
  | array : RecordForm names values (.array values)
  | object {fields extra : List (String × Json)}
      (hfields : fields.Perm (names.zip values ++ extra))
      (hextra : ∀ field ∈ extra, field.1 ∉ names) : RecordForm names values (.object fields)

/-- The names zipped with the values are a form of the record. -/
theorem RecordForm.of_zip (names : List String) (values : List Json) :
    RecordForm names values (.object (names.zip values)) :=
  .object (.of_eq (List.append_nil _).symm) (by simp)

/-- A field is found if no other field has its name. -/
theorem lookup_of_unique {fields : List (String × Json)} {name : String} {value : Json}
    (hmem : (name, value) ∈ fields) (hunique : ∀ other, (name, other) ∈ fields → other = value) :
    fields.lookup name = some value := by
  obtain ⟨found, hfound⟩ : ∃ found, fields.lookup name = some found := by
    rw [← Option.isSome_iff_exists, List.lookup_isSome_iff]
    exact ⟨_, hmem, beq_self_eq_true name⟩
  obtain ⟨before, after, rfl, -⟩ := List.lookup_eq_some_iff.mp hfound
  rw [hfound, hunique found (by simp)]

/-- A list is read if each of its members is. -/
theorem mapM_eq_some_of_forall₂ {α β : Type} {f : α → Option β} {as : List α} {bs : List β}
    (h : List.Forall₂ (fun a b => f a = some b) as bs) : as.mapM f = some bs := by
  induction h with
  | nil => rfl
  | cons hfirst _ ih => rw [List.mapM_cons, hfirst, ih]; rfl

/-- Both forms of a record give its values. -/
theorem RecordForm.fields?_eq {names : List String} {values : List Json} {j : Json}
    (h : RecordForm names values j) (hnames : names.Nodup)
    (hlength : values.length = names.length) : j.fields? names = some values := by
  cases h with
  | array => exact if_pos hlength
  | @object fields extra hfields hextra =>
    apply mapM_eq_some_of_forall₂
    rw [List.forall₂_iff_zip]
    refine ⟨hlength.symm, ?_⟩
    intro name value hzip
    apply lookup_of_unique
    · exact hfields.mem_iff.mpr (List.mem_append_left _ hzip)
    · intro other hother
      rcases List.mem_append.mp (hfields.mem_iff.mp hother) with hsame | hforeign
      · -- The name stands at one place of the list of names.
        obtain ⟨i, hi, hfield⟩ := List.getElem_of_mem hzip
        obtain ⟨k, hk, hfield'⟩ := List.getElem_of_mem hsame
        rw [List.getElem_zip, Prod.mk.injEq] at hfield hfield'
        have hplace := (hnames.getElem_inj_iff).mp (hfield.1.trans hfield'.1.symm)
        subst hplace
        rw [← hfield.2, ← hfield'.2]
      · exact absurd (List.of_mem_zip hzip).1 (hextra _ hforeign)

/-- A record is read alike from its fields and from the array of its values. -/
theorem RecordForm.fields?_eq_array {names : List String} {values : List Json} {j : Json}
    (h : RecordForm names values j) (hnames : names.Nodup)
    (hlength : values.length = names.length) :
    j.fields? names = (Json.array values).fields? names := by
  rw [h.fields?_eq hnames hlength, array.fields?_eq hnames hlength]

end Json

end BranchingTubes
