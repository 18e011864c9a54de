import BranchingTubes.Codec.Drawing
import BranchingTubes.Codec.Rules
import BranchingTubes.Proofs.InsertionHistory
import BranchingTubes.Proofs.JsonReading
import Mathlib

/-!
# Values written as JSON and read back

Every type that is written as JSON is read back if its singles are finite, and is refused
otherwise (`json_round_trip`).  The records among these types are read from other forms than the
one that is written: the fields may be in any order, with foreign ones between them, or there may
be their values alone.  A form of a mesh has segments in forms of their own, and a form of
productions has the symbols in any order.
-/

set_option autoImplicit false

namespace BranchingTubes

variable {single : Float32 → Json}

/-! ## Parts of records -/

namespace Vec3

/-- The coordinates of a vector. -/
def singles (v : Vec3) : List Float32 := [v.x, v.y, v.z]

/-- A vector is read back if its coordinates are finite. -/
theorem reads_toJson (h : WritesExactly single) (v : Vec3) :
    ReadsIfFinite (ofJson? (v.toJson single)) v.singles v :=
  (h.reads v.x).bind ((h.reads v.y).bind ((h.reads v.z).bind_pure _))

end Vec3

namespace Rotation

/-- The components of a rotation. -/
def singles (q : Rotation) : List Float32 := [q.x, q.y, q.z, q.w]

/-- A rotation is read back if its components are finite. -/
theorem reads_toJson (h : WritesExactly single) (q : Rotation) :
    ReadsIfFinite (ofJson? (q.toJson single)) q.singles q :=
  (h.reads q.x).bind ((h.reads q.y).bind ((h.reads q.z).bind ((h.reads q.w).bind_pure _)))

end Rotation

/-- A list of items that are written in the same way is read. -/
theorem Json.reads_list {α : Type} {item : Json → Option α} {write : α → Json}
    {singles : α → List Float32} (values : List α)
    (h : ∀ v ∈ values, ReadsIfFinite (item (write v)) (singles v) v) :
    ReadsIfFinite ((Json.array (values.map write)).list? item) (values.flatMap singles) values := by
  apply ReadsIfFinite.mapM
  rw [List.forall₂_map_right_iff, List.forall₂_same]
  exact h

/-! ## Rules -/

namespace Replacement

/-- The forms of a replacement. -/
def Form (r : Replacement) : Json → Prop :=
  Json.RecordForm fieldNames [.text r.pattern, .text r.successor]

end Replacement

namespace Productions

/-- A production as a field of an object. -/
def field (entry : Char × String) : String × Json := (String.singleton entry.1, .text entry.2)

/-- The forms of productions, with the symbols in any order. -/
def Form (p : Productions) (j : Json) : Prop :=
  ∃ entries : List (Char × String), entries.Perm p.entries ∧
    Json.RecordForm fieldNames [.object (entries.map field)] j

/-- The fields of productions are read back. -/
theorem mapM_production?_field (entries : List (Char × String)) :
    (entries.map field).mapM production? = some entries := by
  apply Json.mapM_eq_some_of_forall₂
  rw [List.forall₂_map_left_iff, List.forall₂_same]
  intro entry _
  have hsymbol : (Json.text (String.singleton entry.1)).char? = some entry.1 :=
    Json.char?_ofChar entry.1
  unfold production? field
  rw [hsymbol]
  rfl

end Productions

namespace WeightedProduction

/-- A weighted successor as JSON. -/
def alternative (single : Float32 → Json) (a : String × Float32) : Json :=
  .array [.text a.1, single a.2]

/-- The weights of a production. -/
def singles (p : WeightedProduction) : List Float32 := p.alternatives.map Prod.snd

/-- The forms of a weighted production. -/
def Form (single : Float32 → Json) (p : WeightedProduction) : Json → Prop :=
  Json.RecordForm fieldNames
    [.ofChar p.symbol, .array (p.alternatives.map (alternative single)), .ofNat p.seed.toNat]

/-- An alternative is read back if its weight is finite. -/
theorem reads_alternative (h : WritesExactly single) (a : String × Float32) :
    ReadsIfFinite (alternative? (alternative single a)) [a.2] a :=
  (ReadsIfFinite.of_some a.1).bind ((h.reads a.2).bind_pure _)

end WeightedProduction

/-! ## Parameters, settings and commands -/

namespace Parameters

/-- The values of the parameters. -/
def singles (p : Parameters) : List Float32 := p.entries.map Prod.snd

/-- The forms of parameters. -/
def Form (single : Float32 → Json) (p : Parameters) : Json → Prop :=
  Json.RecordForm fieldNames (p.singles.map single)

end Parameters

namespace TubeSettings

/-- The forms of settings. -/
def Form (single : Float32 → Json) (s : TubeSettings) : Json → Prop :=
  Json.RecordForm fieldNames
    [.ofNat s.sides.toNat, .ofNat s.depthLimit.toNat, s.orientation.toJson single]

end TubeSettings

namespace Command

/-- The factor of a turn. -/
def singles : Command → List Float32
  | .incline factor => [factor]
  | .azimuth factor => [factor]
  | _ => []

/-- No command without a factor has the name of one with a factor. -/
theorem ofJson?_factor {j : Json} (h : j = .null ∨ ∃ negative size, j.IsNumber negative size) :
    ofJson? (.object [("Incline", j)]) = j.single?.map .incline ∧
      ofJson? (.object [("Azimuth", j)]) = j.single?.map .azimuth := by
  rcases h with rfl | ⟨negative, size, hnumber⟩
  · exact ⟨rfl, rfl⟩
  · cases hnumber <;> exact ⟨rfl, rfl⟩

/-- A command is read back if its factor is finite. -/
theorem reads_toJson (h : WritesExactly single) (c : Command) :
    ReadsIfFinite (ofJson? (c.toJson single)) c.singles c := by
  cases c with
  | incline factor =>
    unfold toJson
    rw [(ofJson?_factor (h.null_or_number factor)).1]
    exact (h.reads factor).map Command.incline
  | azimuth factor =>
    unfold toJson
    rw [(ofJson?_factor (h.null_or_number factor)).2]
    exact (h.reads factor).map Command.azimuth
  | _ => exact .of_eq rfl

end Command

/-! ## Turtles, segments and meshes -/

namespace Turtle

/-- The coordinates, components and extents of a turtle. -/
def singles (t : Turtle) : List Float32 :=
  t.position.singles ++ t.rotation.singles ++ [t.thickness, t.length] ++ t.branchAxis.singles

/-- The forms of a turtle. -/
def Form (single : Float32 → Json) (t : Turtle) : Json → Prop :=
  Json.RecordForm fieldNames [t.position.toJson single, t.rotation.toJson single,
    single t.thickness, single t.length, t.branchAxis.toJson single]

end Turtle

namespace Segment

/-- The coordinates of both ends and the radius. -/
def singles (s : Segment) : List Float32 := s.base.singles ++ s.tip.singles ++ [s.radius]

/-- The forms of a segment. -/
def Form (single : Float32 → Json) (s : Segment) : Json → Prop :=
  Json.RecordForm fieldNames [s.base.toJson single, s.tip.toJson single, single s.radius]

end Segment

namespace Mesh

/-- The coordinates of the vertices and the singles of the segments. -/
def singles (m : Mesh) : List Float32 :=
  m.vertices.toList.flatMap Vec3.singles ++ m.segments.toList.flatMap Segment.singles

/-- The forms of a mesh, each segment in a form of its own. -/
def Form (single : Float32 → Json) (m : Mesh) (j : Json) : Prop :=
  ∃ segments, List.Forall₂ (Segment.Form single) m.segments.toList segments ∧
    Json.RecordForm fieldNames [.array (m.vertices.toList.map (Vec3.toJson single)),
      .array (m.indices.toList.map fun i => .ofNat i.toNat), .array segments] j

end Mesh

/-! ## The round trip -/

/-- Values are written as objects and read back, from the form that is written and from others, if
their singles are finite.  Whatever values the fields have, the array of the values is read like an
object with these fields. -/
structure RecordRoundTrips {α : Type} (names : List String) (write : α → Json)
    (read? : Json → Option α) (Form : α → Json → Prop) (singles : α → List Float32) : Prop where
  object : ∀ v, ∃ fields, write v = .object fields
  written : ∀ v, Form v (write v)
  reads : ∀ v j, Form v j → ReadsIfFinite (read? j) (singles v) v
  agree : ∀ values j, values.length = names.length → Json.RecordForm names values j →
    read? j = read? (.array values)

/-- Replacements are read back. -/
theorem Replacement.round_trips :
    RecordRoundTrips fieldNames toJson ofJson? Form fun _ => [] where
  object r := ⟨_, rfl⟩
  written r := .of_zip _ _
  reads r j hj := by
    unfold ofJson?
    rw [hj.fields?_eq (by decide) rfl]
    exact .of_eq rfl
  agree values j hlength hj := by
    unfold ofJson?
    rw [hj.fields?_eq_array (by decide) hlength]

/-- Productions are read back. -/
theorem Productions.round_trips :
    RecordRoundTrips fieldNames toJson ofJson? Form fun _ => [] where
  object p := ⟨_, rfl⟩
  written p := ⟨p.entries, .refl _, .of_zip _ _⟩
  reads p j hj := by
    obtain ⟨entries, hentries, hrecord⟩ := hj
    unfold ofJson?
    rw [hrecord.fields?_eq (by decide) rfl]
    apply ReadsIfFinite.of_eq
    simp only
    rw [mapM_production?_field, Option.map_some, ofList_of_perm hentries]
  agree values j hlength hj := by
    unfold ofJson?
    rw [hj.fields?_eq_array (by decide) hlength]

/-- Weighted productions are read back if their weights are finite. -/
theorem WeightedProduction.round_trips (h : WritesExactly single) :
    RecordRoundTrips fieldNames (toJson single) ofJson? (Form single) singles where
  object p := ⟨_, rfl⟩
  written p := .of_zip _ _
  reads p j hj := by
    unfold ofJson?
    rw [hj.fields?_eq (by decide) rfl]
    have hsingles : p.singles = p.alternatives.flatMap (fun a => [a.2]) ++ [] := by
      rw [List.append_nil, singles, List.map_eq_flatMap]
    rw [hsingles]
    exact (ReadsIfFinite.of_eq (Json.char?_ofChar p.symbol)).bind
      ((Json.reads_list p.alternatives fun a _ => reads_alternative h a).bind
        ((ReadsIfFinite.of_eq (Json.word64?_ofNat p.seed)).bind_pure _))
  agree values j hlength hj := by
    unfold ofJson?
    rw [hj.fields?_eq_array (by decide) hlength]

/-- Parameters are read back if all of them are finite. -/
theorem Parameters.round_trips (h : WritesExactly single) :
    RecordRoundTrips fieldNames (toJson single) ofJson? (Form single) singles where
  object p := ⟨_, rfl⟩
  written p := .of_zip _ _
  reads p j hj := by
    unfold ofJson?
    rw [hj.fields?_eq (by decide) rfl]
    exact (h.reads p.inclination).bind ((h.reads p.azimuth).bind ((h.reads p.thickness).bind
      ((h.reads p.thicknessDecay).bind ((h.reads p.length).bind
        ((h.reads p.lengthDecay).bind_pure _)))))
  agree values j hlength hj := by
    unfold ofJson?
    rw [hj.fields?_eq_array (by decide) hlength]

/-- Settings are read back if the orientation is finite. -/
theorem TubeSettings.round_trips (h : WritesExactly single) :
    RecordRoundTrips fieldNames (toJson single) ofJson? (Form single)
      fun s => s.orientation.singles where
  object s := ⟨_, rfl⟩
  written s := .of_zip _ _
  reads s j hj := by
    unfold ofJson?
    rw [hj.fields?_eq (by decide) rfl]
    exact (ReadsIfFinite.of_eq (Json.word64?_ofNat s.sides)).bind
      ((ReadsIfFinite.of_eq (Json.word64?_ofNat s.depthLimit)).bind
        ((s.orientation.reads_toJson h).bind_pure _))
  agree values j hlength hj := by
    unfold ofJson?
    rw [hj.fields?_eq_array (by decide) hlength]

/-- Turtles are read back if every number of theirs is finite. -/
theorem Turtle.round_trips (h : WritesExactly single) :
    RecordRoundTrips fieldNames (toJson single) ofJson? (Form single) singles where
  object t := ⟨_, rfl⟩
  written t := .of_zip _ _
  reads t j hj := by
    unfold ofJson?
    rw [hj.fields?_eq (by decide) rfl]
    exact (t.position.reads_toJson h).bind ((t.rotation.reads_toJson h).bind
      ((h.reads t.thickness).bind ((h.reads t.length).bind
        ((t.branchAxis.reads_toJson h).bind_pure _))))
  agree values j hlength hj := by
    unfold ofJson?
    rw [hj.fields?_eq_array (by decide) hlength]

/-- Segments are read back if every number of theirs is finite. -/
theorem Segment.round_trips (h : WritesExactly single) :
    RecordRoundTrips fieldNames (toJson single) ofJson? (Form single) singles where
  object s := ⟨_, rfl⟩
  written s := .of_zip _ _
  reads s j hj := by
    unfold ofJson?
    rw [hj.fields?_eq (by decide) rfl]
    exact (s.base.reads_toJson h).bind ((s.tip.reads_toJson h).bind
      ((h.reads s.radius).bind_pure _))
  agree values j hlength hj := by
    unfold ofJson?
    rw [hj.fields?_eq_array (by decide) hlength]

/-- Meshes are read back if every number of theirs is finite. -/
theorem Mesh.round_trips (h : WritesExactly single) :
    RecordRoundTrips fieldNames (toJson single) ofJson? (Form single) singles where
  object m := ⟨_, rfl⟩
  written m := by
    refine ⟨m.segments.toList.map (Segment.toJson single), ?_, .of_zip _ _⟩
    rw [List.forall₂_map_right_iff, List.forall₂_same]
    intro s _
    exact (Segment.round_trips h).written s
  reads m j hj := by
    obtain ⟨segments, hsegments, hrecord⟩ := hj
    have hindices : (Json.array (m.indices.toList.map fun i => .ofNat i.toNat)).list? Json.word32? =
        some m.indices.toList := by
      apply Json.mapM_eq_some_of_forall₂
      rw [List.forall₂_map_left_iff, List.forall₂_same]
      intro i _
      exact Json.word32?_ofNat i
    have hread : ReadsIfFinite ((Json.array segments).list? Segment.ofJson?)
        (m.segments.toList.flatMap Segment.singles) m.segments.toList :=
      .mapM (hsegments.imp fun s j => (Segment.round_trips h).reads s j)
    unfold ofJson?
    rw [hrecord.fields?_eq (by decide) rfl]
    exact (Json.reads_list m.vertices.toList fun v _ => v.reads_toJson h).bind
      ((ReadsIfFinite.of_eq hindices).bind (hread.bind_pure _))
  agree values j hlength hj := by
    unfold ofJson?
    rw [hj.fields?_eq_array (by decide) hlength]

/-- **The round trip through JSON.**  Let finite singles be written as numbers that denote them
exactly, and others as null.  A value of any of the nine types is written, and it is read back if
and only if all singles in it are finite; then it is the same, bit for bit.  A record is written as
an object and read in the same way from every form: its fields may be in any order and have foreign
ones between them, or there may be their values alone. -/
theorem json_round_trip (h : WritesExactly single) :
    RecordRoundTrips Replacement.fieldNames Replacement.toJson Replacement.ofJson?
      Replacement.Form (fun _ => []) ∧
    RecordRoundTrips Productions.fieldNames Productions.toJson Productions.ofJson?
      Productions.Form (fun _ => []) ∧
    RecordRoundTrips WeightedProduction.fieldNames (WeightedProduction.toJson single)
      WeightedProduction.ofJson? (WeightedProduction.Form single) WeightedProduction.singles ∧
    RecordRoundTrips Parameters.fieldNames (Parameters.toJson single) Parameters.ofJson?
      (Parameters.Form single) Parameters.singles ∧
    RecordRoundTrips TubeSettings.fieldNames (TubeSettings.toJson single) TubeSettings.ofJson?
      (TubeSettings.Form single) (fun s => s.orientation.singles) ∧
    RecordRoundTrips Turtle.fieldNames (Turtle.toJson single) Turtle.ofJson?
      (Turtle.Form single) Turtle.singles ∧
    RecordRoundTrips Segment.fieldNames (Segment.toJson single) Segment.ofJson?
      (Segment.Form single) Segment.singles ∧
    RecordRoundTrips Mesh.fieldNames (Mesh.toJson single) Mesh.ofJson?
      (Mesh.Form single) Mesh.singles ∧
    ∀ c : Command, ReadsIfFinite (Command.ofJson? (c.toJson single)) c.singles c :=
  ⟨Replacement.round_trips, Productions.round_trips, WeightedProduction.round_trips h,
    Parameters.round_trips h, TubeSettings.round_trips h, Turtle.round_trips h,
    Segment.round_trips h, Mesh.round_trips h, Command.reads_toJson h⟩

/-- A mesh with negative zeros and a subnormal number, written as it is, and written as an array
with its segment turned around; and a mesh with an infinite coordinate, which is refused. -/
theorem json_round_trip_of_mesh :
    let single := Json.ofSingle
    let s : Segment := ⟨⟨0.1, -0, 2⟩, ⟨0, 1e-45, 3e38⟩, 0.5⟩
    let m : Mesh := ⟨#[⟨-0, 1, -7⟩], #[4294967295], #[s]⟩
    let unbounded : Mesh := { m with vertices := #[⟨0, 1 / 0, 0⟩] }
    let turned : Json := .object [("colour", .text "green"), ("radius", single 0.5),
      ("end", s.tip.toJson single), ("start", s.base.toJson single)]
    let positional : Json := .array [.array [.array [single (-0), single 1, single (-7)]],
      .array [.ofNat 4294967295], .array [turned]]
    WritesExactly single ∧ Mesh.ofJson? (m.toJson single) = some m ∧
      Mesh.ofJson? positional = some m ∧ Mesh.ofJson? (unbounded.toJson single) = none := by
  intro single s m unbounded turned positional
  obtain ⟨-, -, -, -, -, -, -, hmesh, -⟩ := json_round_trip writesExactly_ofSingle
  have hfinite : ∀ x ∈ m.singles, x.isFinite = true := by decide +kernel
  have hturned : Segment.Form single s turned := by
    refine @Json.RecordForm.object _ _ _ [("colour", .text "green")] ?_ (by simp [Segment.fieldNames])
    exact (List.reverse_perm [("start", s.base.toJson single), ("end", s.tip.toJson single),
      ("radius", single 0.5), ("colour", .text "green")])
  have hpositional : Mesh.Form single m positional :=
    ⟨[turned], .cons hturned .nil, .array⟩
  refine ⟨writesExactly_ofSingle, ?_, ?_, ?_⟩
  · exact (hmesh.reads m _ (hmesh.written m) m).mpr ⟨hfinite, rfl⟩
  · exact (hmesh.reads m _ hpositional m).mpr ⟨hfinite, rfl⟩
  · rw [Option.eq_none_iff_forall_ne_some]
    intro a ha
    have hinfinite := ((hmesh.reads unbounded _ (hmesh.written unbounded) a).mp ha).1
    exact absurd hinfinite (by decide +kernel)

end BranchingTubes
