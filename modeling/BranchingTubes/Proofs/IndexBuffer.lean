import BranchingTubes.Proofs.TubeEmission
import Mathlib

/-!
# The index buffer in unbounded numbers

The strip between two rings is computed in 32-bit words.  `StripExact` says of a strip
that neither of its arguments is cut off and that none of its sums overflows; a strip is
exact when all vertices of its tube can be indexed (`stripExact_of_le`), which is what a
machine asks for before it draws.  An exact strip is `stripIndices`, the same strip
computed in unbounded numbers, and so the whole index buffer of a run is `tubeIndices`
(`indices_of_run`).  The shape of a mesh, `Mesh.IsTubes`, is read off from there.
-/

set_option autoImplicit false

namespace BranchingTubes

/-! ## Triples and blocks of lists -/

section Lists

variable {α β ι : Type}

/-- Three numbers make a triple, and what is left over is dropped. -/
theorem length_triples : (xs : List α) → (triples xs).length = xs.length / 3
  | [] | [_] | [_, _] => by simp [triples]
  | a :: b :: c :: rest => by
    simp only [triples, List.length_cons, length_triples rest]
    omega

/-- The triples of a list are followed by those of the next list if the first leaves nothing
over. -/
theorem triples_append (ys : List α) :
    {xs : List α} → 3 ∣ xs.length → triples (xs ++ ys) = triples xs ++ triples ys
  | [], _ => rfl
  | [_], h => by simp at h
  | [_, _], h => by simp at h
  | a :: b :: c :: rest, h => by
    have hrest : 3 ∣ rest.length := by
      simp only [List.length_cons] at h
      omega
    simp only [List.cons_append, triples, triples_append ys hrest]

/-- Numbers are translated before or after they are made triples of. -/
theorem triples_map (f : α → β) :
    (xs : List α) → triples (xs.map f) = (triples xs).map (Prod.map f (Prod.map f f))
  | [] | [_] | [_, _] => rfl
  | a :: b :: c :: rest => by simp only [List.map_cons, triples, triples_map f rest, Prod.map]

/-- The triples of lists that leave nothing over are the triples of each of them. -/
theorem triples_flatMap {f : ι → List α} (hf : ∀ i, 3 ∣ (f i).length) (is : List ι) :
    triples (is.flatMap f) = is.flatMap fun i => triples (f i) := by
  induction is with
  | nil => rfl
  | cons i is ih => rw [List.flatMap_cons, triples_append _ (hf i), ih, List.flatMap_cons]

/-- A list that leaves nothing over is its triples written out. -/
theorem flatMap_triples :
    {xs : List α} → 3 ∣ xs.length → (triples xs).flatMap (fun t => [t.1, t.2.1, t.2.2]) = xs
  | [], _ => rfl
  | [_], h => by simp at h
  | [_, _], h => by simp at h
  | a :: b :: c :: rest, h => by
    have hrest : 3 ∣ rest.length := by
      simp only [List.length_cons] at h
      omega
    simp only [triples, List.flatMap_cons, flatMap_triples hrest, List.cons_append,
      List.nil_append]

variable {f : ι → List α} {size : ℕ}

/-- Pieces of one size have together their number times the size. -/
theorem length_flatMap_const (hf : ∀ i, (f i).length = size) (is : List ι) :
    (is.flatMap f).length = size * is.length := by
  simp [List.length_flatMap, hf, mul_comm]

/-- Blocks of one size stand at the multiples of that size. -/
theorem take_drop_flatMap (hf : ∀ i, (f i).length = size) {is : List ι} {number : ℕ} {i : ι}
    (h : is[number]? = some i) : ((is.flatMap f).drop (size * number)).take size = f i := by
  obtain ⟨before, after, rfl, rfl⟩ : ∃ before after, is = before ++ i :: after ∧
      number = before.length := by
    obtain ⟨hlt, hi⟩ := List.getElem?_eq_some_iff.mp h
    refine ⟨is.take number, is.drop (number + 1), ?_, by simp; omega⟩
    rw [← hi, ← List.drop_eq_getElem_cons hlt, List.take_append_drop]
  rw [List.flatMap_append, List.drop_left' (length_flatMap_const hf before), List.flatMap_cons,
    List.take_left' (hf i)]

end Lists

/-! ## Strips -/

/-- The corner of a ring after another, the first coming after the last. -/
def nextCorner (sides j : ℕ) : ℕ := (j + 1) % sides

/-- The two triangles of the quadrangle at corner `j` of a strip, as six unbounded indices. -/
def quadIndices (base sides j : ℕ) : List ℕ :=
  let k := nextCorner sides j
  [base + j, base + sides + k, base + sides + j, base + j, base + k, base + sides + k]

/-- The strip between the ring that starts at `base` and the next ring. -/
def stripIndices (base sides : ℕ) : List ℕ := (List.range sides).flatMap (quadIndices base sides)

/-- The strips of so many tubes, each with its rings after those of the tube before. -/
def tubeIndices (sides draws : ℕ) : List ℕ :=
  (List.range draws).flatMap fun d => stripIndices (2 * sides * d) sides

/-- A quadrangle has six indices. -/
@[simp] theorem length_quadIndices (base sides j : ℕ) : (quadIndices base sides j).length = 6 := rfl

/-- A strip has six indices for each side. -/
@[simp] theorem length_stripIndices (base sides : ℕ) :
    (stripIndices base sides).length = 6 * sides := by
  rw [stripIndices, length_flatMap_const (length_quadIndices base sides), List.length_range]

/-- Tubes have six indices for each side and each segment. -/
@[simp] theorem length_tubeIndices (sides draws : ℕ) :
    (tubeIndices sides draws).length = 6 * sides * draws := by
  rw [tubeIndices, length_flatMap_const fun d => length_stripIndices _ sides, List.length_range]

/-- One more segment adds one strip, after the vertices of the tubes before it. -/
theorem tubeIndices_succ (sides draws : ℕ) :
    tubeIndices sides (draws + 1) =
      tubeIndices sides draws ++ stripIndices (2 * sides * draws) sides := by
  simp [tubeIndices, List.range_succ]

/-- The indices of one tube are a strip that starts at the vertices before it. -/
theorem take_drop_tube {sides draws d : ℕ} (hd : d < draws) :
    ((tubeIndices sides draws).drop (6 * sides * d)).take (6 * sides) =
      stripIndices (2 * sides * d) sides :=
  take_drop_flatMap (fun _ => length_stripIndices _ sides) (List.getElem?_range hd)

/-- The indices of one side of one tube are a quadrangle. -/
theorem take_drop_quad {sides draws d j : ℕ} (hd : d < draws) (hj : j < sides) :
    ((tubeIndices sides draws).drop (6 * sides * d + 6 * j)).take 6 =
      quadIndices (2 * sides * d) sides j := by
  have hquad : ((stripIndices (2 * sides * d) sides).drop (6 * j)).take 6 =
      quadIndices (2 * sides * d) sides j :=
    take_drop_flatMap (length_quadIndices _ sides) (List.getElem?_range hj)
  rw [← hquad, ← take_drop_tube hd, List.drop_take, List.take_take, List.drop_drop,
    Nat.min_eq_left (by omega)]

/-- The next corner is a corner. -/
theorem nextCorner_lt {sides j : ℕ} (h : j < sides) : nextCorner sides j < sides :=
  Nat.mod_lt _ (by omega)

/-- A strip names only vertices of its own two rings. -/
theorem lt_of_mem_stripIndices {base sides i : ℕ} (h : i ∈ stripIndices base sides) :
    base ≤ i ∧ i < base + 2 * sides := by
  obtain ⟨j, hj, hi⟩ := List.mem_flatMap.mp h
  rw [List.mem_range] at hj
  have hk := nextCorner_lt hj
  simp only [quadIndices, List.mem_cons, List.not_mem_nil, or_false] at hi
  omega

/-- The indices of tubes name only vertices of the tubes. -/
theorem lt_of_mem_tubeIndices {sides draws i : ℕ} (h : i ∈ tubeIndices sides draws) :
    i < 2 * sides * draws := by
  obtain ⟨d, hd, hi⟩ := List.mem_flatMap.mp h
  rw [List.mem_range] at hd
  calc i < 2 * sides * d + 2 * sides := (lt_of_mem_stripIndices hi).2
    _ = 2 * sides * (d + 1) := by ring
    _ ≤ 2 * sides * draws := Nat.mul_le_mul_left _ hd

/-! ## Exact strips -/

/-- A sum of words is that of the numbers they stand for. -/
def NoOverflow (a b : UInt32) : Prop := (a + b).toNat = a.toNat + b.toNat

/-- The arguments of a strip fit into words, and so does every sum that it is made of. -/
structure StripExact (base sides : ℕ) : Prop where
  base_fits : (UInt32.ofNat base).toNat = base
  sides_fits : (UInt32.ofNat sides).toNat = sides
  sums : ∀ j < UInt32.ofNat sides,
    let b := UInt32.ofNat base
    let n := UInt32.ofNat sides
    let k := (j + 1) % n
    NoOverflow j 1 ∧ NoOverflow b j ∧ NoOverflow b k ∧ NoOverflow b n ∧
      NoOverflow (b + n) j ∧ NoOverflow (b + n) k

/-- A number of vertices that may be drawn fits into an index. -/
theorem toNat_ofNat_of_le {n : ℕ} (h : n ≤ maxVertices) : (UInt32.ofNat n).toNat = n := by
  have hmax : maxVertices = 2 ^ 32 - 1 := rfl
  rw [UInt32.toNat_ofNat_of_lt']
  show n < 2 ^ 32
  omega

/-- A sum of indices that may be drawn does not overflow. -/
theorem noOverflow_of_le {a b : UInt32} (h : a.toNat + b.toNat ≤ maxVertices) :
    NoOverflow a b := by
  have hmax : maxVertices = 2 ^ 32 - 1 := rfl
  rw [NoOverflow, UInt32.toNat_add, Nat.mod_eq_of_lt (by omega)]

/-- A strip is exact when every vertex of its tube can be indexed. -/
theorem stripExact_of_le {base sides : ℕ} (h : base + 2 * sides ≤ maxVertices) :
    StripExact base sides := by
  have hbase : (UInt32.ofNat base).toNat = base := toNat_ofNat_of_le (by omega)
  have hsides : (UInt32.ofNat sides).toNat = sides := toNat_ofNat_of_le (by omega)
  refine ⟨hbase, hsides, fun j hj => ?_⟩
  intro b n k
  have hb : b.toNat = base := hbase
  have hn : n.toNat = sides := hsides
  have hj : j.toNat < sides := hsides ▸ UInt32.lt_iff_toNat_lt.mp hj
  have hk : k.toNat < sides := by
    rw [UInt32.toNat_mod, hsides]
    exact Nat.mod_lt _ (by omega)
  have hone : (1 : UInt32).toNat = 1 := rfl
  have hbn : NoOverflow b n := noOverflow_of_le (by omega)
  have hring : (b + n).toNat = base + sides := by rw [hbn, hb, hn]
  refine ⟨?_, ?_, ?_, hbn, ?_, ?_⟩ <;> exact noOverflow_of_le (by omega)

/-- An exact strip, read as unbounded numbers. -/
theorem StripExact.map_toNat_strip {base sides : ℕ} (h : StripExact base sides) :
    (strip (UInt32.ofNat base) (UInt32.ofNat sides)).map UInt32.toNat =
      stripIndices base sides := by
  rw [strip, List.map_flatMap, h.sides_fits, stripIndices]
  refine List.flatMap_congr fun j hj => ?_
  rw [List.mem_range] at hj
  have hsize : sides < UInt32.size := by
    rw [← h.sides_fits]
    exact UInt32.toNat_lt_size _
  have hj' : (UInt32.ofNat j).toNat = j := UInt32.toNat_ofNat_of_lt' (by omega)
  have hlt : UInt32.ofNat j < UInt32.ofNat sides := by
    rw [UInt32.lt_iff_toNat_lt, hj', h.sides_fits]
    exact hj
  -- The remainder is taken of `j + 1` itself, since that sum does not overflow either.
  obtain ⟨hj1, hbj, hbk, hbn, hbnj, hbnk⟩ := h.sums _ hlt
  have hk : ((UInt32.ofNat j + 1) % UInt32.ofNat sides).toNat = nextCorner sides j := by
    rw [UInt32.toNat_mod, hj1, hj', h.sides_fits]
    rfl
  unfold NoOverflow at hbj hbk hbn hbnj hbnk
  simp only [stripQuad, List.map_cons, List.map_nil, hbj, hbk, hbnj, hbnk, hbn, hk, hj',
    h.base_fits, h.sides_fits, quadIndices]

/-! ## The index buffer of a run -/

namespace Machine

variable {s : Setup} {index : ℕ} {m m' : Machine} {is : List Instruction}

/-- The index buffer at the end of a run holds the strips of all tubes drawn. -/
theorem indices_of_run (h : run s 0 (start s) is = .ok m) :
    m.mesh.indices.toList.map UInt32.toNat =
      tubeIndices s.settings.sides.toNat (is.countP Marks.instruction.draws) := by
  refine run_induction ?_ (fun is i mid hmid hnone ih => ?_) h
  · rfl
  · rw [List.countP_append, List.countP_singleton]
    by_cases hi : i.command = .draw
    · -- The machine has checked that the vertices of the new tube can be indexed.
      have hexact := stripExact_of_le ((refusal?_eq_none_iff.mp hnone).1 hi)
      rw [mesh_obey_of_draw hi, Mesh.indices_addTube, List.map_append, ih,
        hexact.map_toNat_strip, vertexCount_of_start hmid,
        if_pos (Marks.instruction_draws_iff.mpr hi), tubeIndices_succ]
    · rw [mesh_obey_of_ne_draw hi, ih, if_neg (mt Marks.instruction_draws_iff.mp hi),
        Nat.add_zero]

/-- No run draws more vertices than can be indexed. -/
theorem vertexCount_le_of_run (h : run s 0 (start s) is = .ok m) :
    m.mesh.vertexCount ≤ maxVertices := by
  refine run_induction ?_ (fun is i mid _ hnone ih => ?_) h
  · exact Nat.zero_le _
  · by_cases hi : i.command = .draw
    · rw [mesh_obey_of_draw hi, Mesh.vertexCount_addTube]
      exact (refusal?_eq_none_iff.mp hnone).1 hi
    · rw [mesh_obey_of_ne_draw hi]
      exact ih

end Machine

/-! ## The shape of a mesh -/

/-- A mesh is made of so many tubes, each with so many sides. -/
structure Mesh.IsTubes (m : Mesh) (sides draws : ℕ) : Prop where
  vertices : m.vertices.size = 2 * sides * draws
  segments : m.segments.size = draws
  indices : m.indices.size = 6 * sides * draws
  triangles : m.triangles.length = 2 * sides * draws
  triangles_row : m.triangles.flatMap (fun t => [t.1, t.2.1, t.2.2]) = m.indices.toList
  /-- The six indices of each quadrangle, in its place. -/
  quads : ∀ d < draws, ∀ j < sides,
    ((m.indices.toList.drop (6 * sides * d + 6 * j)).take 6).map UInt32.toNat =
      quadIndices (2 * sides * d) sides j
  /-- Every strip stands as it was computed in words, and in that computation nothing was
  cut off and no sum overflowed. -/
  strips : ∀ d < draws, StripExact (2 * sides * d) sides ∧
    (m.indices.toList.drop (6 * sides * d)).take (6 * sides) =
      strip (UInt32.ofNat (2 * sides * d)) (UInt32.ofNat sides)
  bounded : ∀ i ∈ m.indices, i.toNat < m.vertices.size

namespace Mesh

variable {m : Mesh} {sides draws : ℕ}

/-- A mesh with the vertices, the segments and the indices of tubes consists of tubes. -/
theorem isTubes_of_indices (hvertices : m.vertexCount = 2 * sides * draws)
    (hmax : m.vertexCount ≤ maxVertices) (hsegments : m.segments.toList.length = draws)
    (hindices : m.indices.toList.map UInt32.toNat = tubeIndices sides draws) :
    m.IsTubes sides draws := by
  have hlength : m.indices.toList.length = 6 * sides * draws := by
    rw [← List.length_map UInt32.toNat, hindices, length_tubeIndices]
  have hthree : m.indices.toList.length = 3 * (2 * sides * draws) := by
    rw [hlength]
    ring
  refine ⟨hvertices, hsegments, hlength, ?_, ?_, ?_, ?_, ?_⟩
  · rw [Mesh.triangles, length_triples, hthree, Nat.mul_div_cancel_left _ (by decide)]
  · exact flatMap_triples ⟨_, hthree⟩
  · intro d hd j hj
    rw [List.map_take, List.map_drop, hindices, take_drop_quad hd hj]
  · intro d hd
    have hexact : StripExact (2 * sides * d) sides := by
      apply stripExact_of_le
      calc 2 * sides * d + 2 * sides = 2 * sides * (d + 1) := by ring
        _ ≤ 2 * sides * draws := Nat.mul_le_mul_left _ hd
        _ ≤ maxVertices := hvertices ▸ hmax
    refine ⟨hexact, List.map_injective_iff.mpr (fun _ _ => UInt32.toNat_inj.mp) ?_⟩
    rw [hexact.map_toNat_strip, List.map_take, List.map_drop, hindices, take_drop_tube hd]
  · intro i hi
    have hmem : i.toNat ∈ tubeIndices sides draws := by
      rw [← hindices]
      exact List.mem_map_of_mem (Array.mem_toList_iff.mpr hi)
    have hlt := lt_of_mem_tubeIndices hmem
    rw [← hvertices] at hlt
    exact hlt

end Mesh

namespace Setup

variable {s : Setup} {r : Interpretation}

/-- Every interpretation that succeeds draws tubes, one for each instruction that draws. -/
theorem isTubes_of_interpret {is : List Instruction} (h : s.interpret is = .ok r) :
    r.mesh.IsTubes s.settings.sides.toNat (is.countP Marks.instruction.draws) := by
  obtain ⟨-, m, hrun, rfl⟩ := interpret_eq_ok_iff.mp h
  have hsegments : m.mesh.segments.toList.length = is.countP Marks.instruction.draws := by
    simpa [Machine.start, Mesh.empty] using Machine.segmentCount_of_run hrun
  exact Mesh.isTubes_of_indices (Machine.vertexCount_of_start hrun)
    (Machine.vertexCount_le_of_run hrun) hsegments (Machine.indices_of_run hrun)

/-- **The shape of the mesh.**  Whatever is interpreted, the sizes of the three parts of the
mesh and every index in it are those of as many tubes as segments are drawn, computed in
unbounded numbers. -/
theorem interpret_shape (s : Setup) :
    (∀ (word : String) (r : Interpretation), s.interpretText word = .ok r →
      r.mesh.IsTubes s.settings.sides.toNat (word.toList.count 'F')) ∧
    ∀ (commands : CommandMap) (d : Derivation) (r : Interpretation),
      s.interpretModules commands d = .ok r →
      r.mesh.IsTubes s.settings.sides.toNat
        (d.modules.toList.countP fun m => commands.get m.symbol == .draw) :=
  text_and_modules (P := fun draws r => r.mesh.IsTubes s.settings.sides.toNat draws)
    fun _ _ h => isTubes_of_interpret h

/-- A word with branches that draws three segments of five sides. -/
theorem interpret_shape_three :
    ∃ r, standard.interpretText "F[+F]F" = .ok r ∧ r.mesh.IsTubes 5 3 := by
  obtain ⟨r, hr⟩ : ∃ r, standard.interpretText "F[+F]F" = .ok r :=
    exists_result (by decide +kernel)
  exact ⟨r, hr, (interpret_shape standard).1 _ r hr⟩

end Setup

end BranchingTubes
