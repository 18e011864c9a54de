import BranchingTubes.Proofs.IndexBuffer
import BranchingTubes.Proofs.OrientedTriangles
import Mathlib

/-!
# The topology of the tubes

The vertices of a mesh come in rings, two to a tube, and `ringVertex` numbers them.  The
triangles of all tubes are named by tube, corner and half (`tubeTriangle`), and the faces
of a mesh are the named ones in order (`faces_of_indices`).  Each arrow belongs to one name
only (`tubeTriangle_unique`).  It is taken in the other direction by a neighbour, or else
its edge lies on a rim (`swap_mem_or_onRim`), and a rim is taken in one direction only
(`exists_single_arrow_of_onRim`).  Counted together this makes every tube an oriented
surface whose boundary is its two rims: `Mesh.OpenTubes`.
-/

set_option autoImplicit false

namespace BranchingTubes

/-! ## Rings -/

variable {sides draws : ℕ}

/-- The number of the vertex at a corner of a ring. -/
def ringVertex (sides ring j : ℕ) : ℕ := sides * ring + j

/-- The first ring of a tube has the first of its vertices. -/
theorem ringVertex_even (sides d j : ℕ) : ringVertex sides (2 * d) j = 2 * sides * d + j := by
  rw [ringVertex]
  ring

/-- The second ring of a tube has the vertices after those of the first. -/
theorem ringVertex_odd (sides d j : ℕ) :
    ringVertex sides (2 * d + 1) j = 2 * sides * d + sides + j := by
  rw [ringVertex]
  ring

/-- A vertex belongs to one ring, at one place of it. -/
theorem ringVertex_inj {r r' j j' : ℕ} (hj : j < sides) (hj' : j' < sides) :
    ringVertex sides r j = ringVertex sides r' j' ↔ r = r' ∧ j = j' := by
  constructor
  · intro h
    have hpos : 0 < sides := by omega
    have hring : ∀ r j, j < sides → ringVertex sides r j / sides = r := by
      intro r j hj
      rw [ringVertex, Nat.mul_add_div hpos, Nat.div_eq_of_lt hj, Nat.add_zero]
    have hcorner : ∀ r j, j < sides → ringVertex sides r j % sides = j := by
      intro r j hj
      rw [ringVertex, Nat.mul_add_mod, Nat.mod_eq_of_lt hj]
    exact ⟨by rw [← hring r j hj, h, hring r' j' hj'],
      by rw [← hcorner r j hj, h, hcorner r' j' hj']⟩
  · rintro ⟨rfl, rfl⟩
    rfl

/-- The next corner is the one after, or the first one after the last. -/
theorem nextCorner_cases {j : ℕ} (h : j < sides) :
    j + 1 = sides ∧ nextCorner sides j = 0 ∨ j + 1 < sides ∧ nextCorner sides j = j + 1 := by
  rcases Nat.lt_or_eq_of_le (Nat.succ_le_of_lt h) with hlt | heq
  · exact .inr ⟨hlt, Nat.mod_eq_of_lt hlt⟩
  · refine .inl ⟨heq, ?_⟩
    rw [nextCorner, show j + 1 = sides from heq, Nat.mod_self]

/-- Every corner is the next one of some corner. -/
theorem exists_nextCorner_eq {j : ℕ} (h : j < sides) : ∃ i < sides, nextCorner sides i = j := by
  cases j with
  | zero => exact ⟨sides - 1, by omega, by rw [nextCorner, Nat.sub_add_cancel h, Nat.mod_self]⟩
  | succ i => exact ⟨i, by omega, Nat.mod_eq_of_lt h⟩

/-! ## Named triangles -/

/-- The triangles of a tube by name: the number of the tube, a corner, and whether the
triangle has an edge on the upper ring. -/
def tubeTriangle (sides : ℕ) : ℕ × ℕ × Bool → Triangle
  | (d, j, true) =>
    ⟨ringVertex sides (2 * d) j, ringVertex sides (2 * d + 1) (nextCorner sides j),
      ringVertex sides (2 * d + 1) j⟩
  | (d, j, false) =>
    ⟨ringVertex sides (2 * d) j, ringVertex sides (2 * d) (nextCorner sides j),
      ringVertex sides (2 * d + 1) (nextCorner sides j)⟩

/-- The names of all triangles, in the order of the index buffer. -/
def triangleNames (sides draws : ℕ) : List (ℕ × ℕ × Bool) :=
  List.range draws ×ˢ List.range sides ×ˢ [true, false]

/-- The triangles of so many tubes. -/
def tubeTriangles (sides draws : ℕ) : List Triangle :=
  (triangleNames sides draws).map (tubeTriangle sides)

/-- A triangle is named by its tube, its side and which half of the quadrangle it is. -/
theorem mem_triangleNames {d j : ℕ} {upper : Bool} :
    (d, j, upper) ∈ triangleNames sides draws ↔ d < draws ∧ j < sides := by
  cases upper <;> simp [triangleNames]

/-- Each triangle has one name. -/
theorem nodup_triangleNames : (triangleNames sides draws).Nodup :=
  List.nodup_range.product (List.nodup_range.product (by decide))

/-- The triangle of each name is a triangle of the tubes. -/
theorem tubeTriangle_mem {d j : ℕ} (hd : d < draws) (hj : j < sides) (upper : Bool) :
    tubeTriangle sides (d, j, upper) ∈ tubeTriangles sides draws :=
  List.mem_map_of_mem (mem_triangleNames.mpr ⟨hd, hj⟩)

/-- Each triangle of the tubes has a name. -/
theorem exists_of_mem_tubeTriangles {t : Triangle} (ht : t ∈ tubeTriangles sides draws) :
    ∃ d j upper, d < draws ∧ j < sides ∧ tubeTriangle sides (d, j, upper) = t := by
  obtain ⟨⟨d, j, upper⟩, hname, rfl⟩ := List.mem_map.mp ht
  obtain ⟨hd, hj⟩ := mem_triangleNames.mp hname
  exact ⟨d, j, upper, hd, hj, rfl⟩

/-- The corners of a triangle are corners of its quadrangle. -/
theorem corners_subset_quadIndices (d j : ℕ) (upper : Bool) :
    (tubeTriangle sides (d, j, upper)).corners ⊆ quadIndices (2 * sides * d) sides j := by
  cases upper <;>
    simp [tubeTriangle, Triangle.corners, quadIndices, ringVertex_even, ringVertex_odd]

/-- With two sides or more the corners of a triangle are distinct. -/
theorem nodup_corners {d j : ℕ} (upper : Bool) (hsides : 2 ≤ sides) (hj : j < sides) :
    (tubeTriangle sides (d, j, upper)).corners.Nodup := by
  have hk := nextCorner_lt hj
  have hnext := nextCorner_cases hj
  rw [Triangle.nodup_corners_iff]
  cases upper <;> simp only [tubeTriangle, ne_eq, ringVertex_inj, hj, hk] <;> omega

/-- An arrow belongs to one named triangle only. -/
theorem tubeTriangle_unique (hsides : 2 ≤ sides) {d d' j j' : ℕ} {upper upper' : Bool}
    (hj : j < sides) (hj' : j' < sides) {a : ℕ × ℕ}
    (h : a ∈ (tubeTriangle sides (d, j, upper)).arrows)
    (h' : a ∈ (tubeTriangle sides (d', j', upper')).arrows) :
    (d, j, upper) = (d', j', upper') := by
  have hk := nextCorner_lt hj
  have hk' := nextCorner_lt hj'
  have hnext := nextCorner_cases hj
  have hnext' := nextCorner_cases hj'
  -- The rings of the two ends tell the tube and leave two arrows at most, one along a side
  -- and one along a diagonal; the corners tell these apart.
  cases upper <;> cases upper' <;>
    simp only [tubeTriangle, Triangle.mem_arrows_iff] at h h' <;>
    rcases h with rfl | rfl | rfl <;>
    simp only [Prod.mk.injEq, ringVertex_inj, hj, hj', hk, hk', reduceCtorEq, and_true,
      and_false] at h' ⊢ <;>
    omega

/-- No arrow occurs twice in the triangles of the tubes. -/
theorem arrowCount_tubeTriangles_le_one (hsides : 2 ≤ sides) (draws : ℕ) (a : ℕ × ℕ) :
    arrowCount (tubeTriangles sides draws) a ≤ 1 := by
  refine arrowCount_map_le_one nodup_triangleNames ?_
  rintro ⟨d, j, upper⟩ hname ⟨d', j', upper'⟩ hname' ha ha'
  obtain ⟨-, hj⟩ := mem_triangleNames.mp hname
  obtain ⟨-, hj'⟩ := mem_triangleNames.mp hname'
  exact tubeTriangle_unique hsides hj hj' ha ha'

/-- The three corners of a triangle of the tubes differ. -/
theorem nodup_corners_of_mem (hsides : 2 ≤ sides) {t : Triangle}
    (ht : t ∈ tubeTriangles sides draws) : t.corners.Nodup := by
  obtain ⟨d, j, upper, -, hj, rfl⟩ := exists_of_mem_tubeTriangles ht
  exact nodup_corners upper hsides hj

/-! ## Rims -/

/-- An edge lies on a rim: it joins a corner of a ring with the next one. -/
def OnRim (sides draws : ℕ) (e : Sym2 ℕ) : Prop :=
  ∃ r < 2 * draws, ∃ j < sides, e = s(ringVertex sides r j, ringVertex sides r (nextCorner sides j))

/-- An arrow of one triangle is taken the other way by a neighbour, or else its edge lies on
a rim. -/
theorem swap_mem_or_onRim {t : Triangle} (ht : t ∈ tubeTriangles sides draws) {u v : ℕ}
    (h : (u, v) ∈ t.arrows) :
    (∃ t' ∈ tubeTriangles sides draws, (v, u) ∈ t'.arrows) ∨ OnRim sides draws s(u, v) := by
  obtain ⟨d, j, upper, hd, hj, rfl⟩ := exists_of_mem_tubeTriangles ht
  cases upper with
  | true =>
    simp only [tubeTriangle, Triangle.mem_arrows_iff, Prod.mk.injEq] at h
    rcases h with ⟨rfl, rfl⟩ | ⟨rfl, rfl⟩ | ⟨rfl, rfl⟩
    · -- The diagonal, shared with the other triangle of the quadrangle.
      exact .inl ⟨_, tubeTriangle_mem hd hj false, by simp [tubeTriangle, Triangle.arrows]⟩
    · exact .inr ⟨2 * d + 1, by omega, j, hj, Sym2.eq_swap⟩
    · -- The side, shared with the quadrangle before.
      obtain ⟨i, hi, hij⟩ := exists_nextCorner_eq hj
      exact .inl ⟨_, tubeTriangle_mem hd hi false, by simp [tubeTriangle, Triangle.arrows, hij]⟩
  | false =>
    simp only [tubeTriangle, Triangle.mem_arrows_iff, Prod.mk.injEq] at h
    rcases h with ⟨rfl, rfl⟩ | ⟨rfl, rfl⟩ | ⟨rfl, rfl⟩
    · exact .inr ⟨2 * d, by omega, j, hj, rfl⟩
    · -- The side, shared with the quadrangle after.
      exact .inl ⟨_, tubeTriangle_mem hd (nextCorner_lt hj) true,
        by simp [tubeTriangle, Triangle.arrows]⟩
    · exact .inl ⟨_, tubeTriangle_mem hd hj true, by simp [tubeTriangle, Triangle.arrows]⟩

/-- The triangles go along the lower ring of a tube forwards and along its upper ring
backwards. -/
theorem mem_arrows_ring_iff {d r i x y : ℕ} {upper : Bool} (hi : i < sides) (hx : x < sides)
    (hy : y < sides) :
    (ringVertex sides r x, ringVertex sides r y) ∈ (tubeTriangle sides (d, i, upper)).arrows ↔
      (upper = false ∧ r = 2 * d ∧ x = i ∧ y = nextCorner sides i) ∨
        (upper = true ∧ r = 2 * d + 1 ∧ y = i ∧ x = nextCorner sides i) := by
  have hk := nextCorner_lt hi
  cases upper <;>
    simp only [tubeTriangle, Triangle.mem_arrows_iff, Prod.mk.injEq, ringVertex_inj, hi, hx, hy, hk,
      reduceCtorEq, false_and, true_and, false_or, or_false] <;>
    omega

/-- The triangles go along a rim in one direction only, when a ring has more than two
corners. -/
theorem exists_single_arrow_of_onRim (hsides : 3 ≤ sides) {e : Sym2 ℕ} (he : OnRim sides draws e) :
    ∃ u v, e = s(u, v) ∧ (∃ t ∈ tubeTriangles sides draws, (u, v) ∈ t.arrows) ∧
      ∀ t ∈ tubeTriangles sides draws, (v, u) ∉ t.arrows := by
  obtain ⟨r, hr, j, hj, rfl⟩ := he
  have hk := nextCorner_lt hj
  have hnext := nextCorner_cases hj
  -- A triangle at corner `i` that went back would have `j` two corners after itself.
  have hback {i : ℕ} (hi : i < sides) (hki : nextCorner sides j = i) :
      j ≠ nextCorner sides i := by
    have := nextCorner_cases hi
    omega
  rcases Nat.even_or_odd' r with ⟨d, rfl | rfl⟩
  · refine ⟨_, _, rfl, ⟨_, tubeTriangle_mem (d := d) (by omega) hj false, ?_⟩, ?_⟩
    · rw [mem_arrows_ring_iff hj hj hk]
      exact .inl ⟨rfl, rfl, rfl, rfl⟩
    · intro t ht
      obtain ⟨d', i, upper, -, hi, rfl⟩ := exists_of_mem_tubeTriangles ht
      rw [mem_arrows_ring_iff hi hk hj]
      rintro (⟨-, -, hki, hji⟩ | ⟨-, hodd, -, -⟩)
      · exact hback hi hki hji
      · omega
  · refine ⟨_, _, Sym2.eq_swap, ⟨_, tubeTriangle_mem (d := d) (by omega) hj true, ?_⟩, ?_⟩
    · rw [mem_arrows_ring_iff hj hk hj]
      exact .inr ⟨rfl, rfl, rfl, rfl⟩
    · intro t ht
      obtain ⟨d', i, upper, -, hi, rfl⟩ := exists_of_mem_tubeTriangles ht
      rw [mem_arrows_ring_iff hi hj hk]
      rintro (⟨-, heven, -, -⟩ | ⟨-, -, hki, hji⟩)
      · omega
      · exact hback hi hki hji

/-- An edge is on a rim exactly when it lies in one triangle. -/
theorem edgeCount_eq_one_iff (hsides : 3 ≤ sides) (e : Sym2 ℕ) :
    edgeCount (tubeTriangles sides draws) e = 1 ↔ OnRim sides draws e := by
  have hcorners (t : Triangle) (ht : t ∈ tubeTriangles sides draws) : t.corners.Nodup :=
    nodup_corners_of_mem (by omega) ht
  constructor
  · intro hone
    obtain ⟨t, ht, he⟩ : ∃ t ∈ tubeTriangles sides draws, e ∈ t.edges := by
      have hpos : 0 < edgeCount (tubeTriangles sides draws) e := by omega
      simpa [edgeCount, List.countP_pos_iff] using hpos
    obtain ⟨u, v, rfl, huv⟩ := Triangle.exists_arrow_of_mem_edges he
    -- Were the edge taken the other way as well, it would lie in two triangles.
    refine (swap_mem_or_onRim ht huv).resolve_left fun hvu => ?_
    have hthere := arrowCount_pos_iff.mpr ⟨t, ht, huv⟩
    have hback := arrowCount_pos_iff.mpr hvu
    rw [edgeCount_eq hcorners] at hone
    omega
  · intro he
    obtain ⟨u, v, rfl, hthere, hback⟩ := exists_single_arrow_of_onRim hsides he
    have hsome := arrowCount_pos_iff.mpr hthere
    have hle := arrowCount_tubeTriangles_le_one (by omega : 2 ≤ sides) draws (u, v)
    have hnone : arrowCount (tubeTriangles sides draws) (v, u) = 0 := by
      by_contra hne
      obtain ⟨t, ht, hvu⟩ := arrowCount_pos_iff.mp (Nat.pos_of_ne_zero hne)
      exact hback t ht hvu
    rw [edgeCount_eq hcorners]
    omega

/-- An edge of the tubes has one triangle or two. -/
theorem edgeCount_of_mem (hsides : 2 ≤ sides) {t : Triangle} (ht : t ∈ tubeTriangles sides draws)
    {e : Sym2 ℕ} (he : e ∈ t.edges) :
    edgeCount (tubeTriangles sides draws) e = 1 ∨ edgeCount (tubeTriangles sides draws) e = 2 := by
  obtain ⟨u, v, rfl, huv⟩ := Triangle.exists_arrow_of_mem_edges he
  rw [edgeCount_eq fun t ht => nodup_corners_of_mem hsides ht]
  have hthere := arrowCount_tubeTriangles_le_one hsides draws (u, v)
  have hback := arrowCount_tubeTriangles_le_one hsides draws (v, u)
  have hpos := arrowCount_pos_iff.mpr ⟨t, ht, huv⟩
  omega

/-! ## Vertices -/

/-- Going once around a ring from the next corner meets the same corners. -/
theorem map_nextCorner_perm (sides : ℕ) :
    ((List.range sides).map (nextCorner sides)).Perm (List.range sides) := by
  have hrotate : (List.range sides).map (nextCorner sides) = (List.range sides).rotate 1 := by
    apply List.ext_getElem
    · simp
    · intro j hj _
      simp [List.getElem_rotate, nextCorner]
  rw [hrotate]
  exact List.rotate_perm _ _

/-- In the quadrangles of some sides, a vertex is counted twice as a first corner and once as a next
corner of the one ring, and the other way round of the other ring. -/
theorem count_flatMap_quadIndices (base v : ℕ) (js : List ℕ) :
    (js.flatMap (quadIndices base sides)).count v =
      2 * (js.map (base + ·)).count v + ((js.map (nextCorner sides)).map (base + ·)).count v +
        ((js.map (base + sides + ·)).count v +
          2 * ((js.map (nextCorner sides)).map (base + sides + ·)).count v) := by
  induction js with
  | nil => rfl
  | cons j js ih =>
    simp only [List.flatMap_cons, List.count_append, ih, quadIndices, List.map_cons,
      List.count_cons, List.count_nil]
    ring

/-- Every vertex of a tube is a corner of three of its triangles. -/
theorem count_stripIndices (base v : ℕ) :
    (stripIndices base sides).count v = if base ≤ v ∧ v < base + 2 * sides then 3 else 0 := by
  have hring (first : ℕ) : ((List.range sides).map (first + ·)).count v =
      if first ≤ v ∧ v < first + sides then 1 else 0 := by
    rw [← List.range'_eq_map_range, List.Nodup.count List.nodup_range']
    simp only [List.mem_range'_1]
  -- Where a quadrangle has the next corner of a ring, all of them together have the ring.
  have hperm (first : ℕ) : (((List.range sides).map (nextCorner sides)).map (first + ·)).count v =
      ((List.range sides).map (first + ·)).count v :=
    ((map_nextCorner_perm sides).map _).count_eq v
  rw [stripIndices, count_flatMap_quadIndices, hperm, hperm, hring, hring]
  split_ifs <;> omega

/-- Every vertex of the tubes is a corner of three triangles, and no other number is one. -/
theorem count_tubeIndices (sides draws v : ℕ) :
    (tubeIndices sides draws).count v = if v < 2 * sides * draws then 3 else 0 := by
  induction draws with
  | zero => rfl
  | succ draws ih =>
    rw [tubeIndices_succ, List.count_append, ih, count_stripIndices,
      show 2 * sides * (draws + 1) = 2 * sides * draws + 2 * sides by ring]
    split_ifs <;> omega

/-! ## The faces of a mesh -/

/-- The triangles of a mesh, by the numbers of their corners. -/
def Mesh.faces (m : Mesh) : List Triangle :=
  m.triangles.map fun t => ⟨t.1.toNat, t.2.1.toNat, t.2.2.toNat⟩

/-- A mesh with the indices of tubes has their triangles. -/
theorem Mesh.faces_of_indices {m : Mesh}
    (h : m.indices.toList.map UInt32.toNat = tubeIndices sides draws) :
    m.faces = tubeTriangles sides draws := by
  have hfaces : m.faces = (triples (m.indices.toList.map UInt32.toNat)).map
      fun t => ⟨t.1, t.2.1, t.2.2⟩ := by
    rw [triples_map, List.map_map, Mesh.faces, Mesh.triangles]
    rfl
  have hstrip (base : ℕ) : triples (stripIndices base sides) =
      (List.range sides).flatMap fun j => triples (quadIndices base sides j) :=
    triples_flatMap (fun j => by simp) _
  have htubes : triples (tubeIndices sides draws) =
      (List.range draws).flatMap fun d => triples (stripIndices (2 * sides * d) sides) :=
    triples_flatMap (fun d => by simp; omega) _
  rw [hfaces, h, htubes]
  simp only [hstrip, tubeTriangles, triangleNames, List.product, SProd.sprod]
  simp [List.map_flatMap, quadIndices, triples, tubeTriangle, ringVertex_even, ringVertex_odd]

/-! ## Open tubes -/

/-- The triangles of a mesh form so many separate tubes, each with so many sides, open at
both ends and consistently oriented. -/
structure Mesh.OpenTubes (m : Mesh) (sides draws : ℕ) : Prop where
  distinct : ∀ t ∈ m.faces, t.corners.Nodup
  /-- The corners of a triangle are vertices of one tube. -/
  separate : ∀ t ∈ m.faces, ∃ d < draws, ∀ v ∈ t.corners,
    2 * sides * d ≤ v ∧ v < 2 * sides * (d + 1)
  /-- Every vertex stands three times in the index buffer. -/
  valence : ∀ v < m.vertices.size, (m.indices.toList.map UInt32.toNat).count v = 3
  one_or_two : ∀ t ∈ m.faces, ∀ e ∈ t.edges, edgeCount m.faces e = 1 ∨ edgeCount m.faces e = 2
  /-- Two triangles with an edge in common go along it in opposite directions. -/
  oriented : ∀ (e : Sym2 ℕ) (f g : Triangle), m.faces.filter (e ∈ ·.edges) = [f, g] →
    ∃ u v, e = s(u, v) ∧ (u, v) ∈ f.arrows ∧ (v, u) ∈ g.arrows
  /-- The edges that lie in one triangle are those of the rings. -/
  rims : ∀ e : Sym2 ℕ, edgeCount m.faces e = 1 ↔
    ∃ r < 2 * draws, ∃ j < sides, e = s(sides * r + j, sides * r + (j + 1) % sides)

/-- A mesh with the vertices and the indices of tubes is made of open tubes. -/
theorem Mesh.openTubes_of_indices {m : Mesh} (hsides : 3 ≤ sides)
    (hvertices : m.vertexCount = 2 * sides * draws)
    (hindices : m.indices.toList.map UInt32.toNat = tubeIndices sides draws) :
    m.OpenTubes sides draws := by
  have hfaces := Mesh.faces_of_indices hindices
  have htwo : 2 ≤ sides := by omega
  refine ⟨?_, ?_, ?_, ?_, ?_, ?_⟩
  · rw [hfaces]
    exact fun t ht => nodup_corners_of_mem htwo ht
  · rw [hfaces]
    intro t ht
    obtain ⟨d, j, upper, hd, hj, rfl⟩ := exists_of_mem_tubeTriangles ht
    refine ⟨d, hd, fun v hv => ?_⟩
    have hmem : v ∈ stripIndices (2 * sides * d) sides :=
      List.mem_flatMap.mpr ⟨j, List.mem_range.mpr hj, corners_subset_quadIndices d j upper hv⟩
    rw [Nat.mul_succ]
    exact lt_of_mem_stripIndices hmem
  · intro v hv
    have hsize : m.vertices.size = 2 * sides * draws := hvertices
    rw [hsize] at hv
    rw [hindices, count_tubeIndices, if_pos hv]
  · rw [hfaces]
    exact fun t ht e he => edgeCount_of_mem htwo ht he
  · rw [hfaces]
    exact fun e f g hfg => exists_opposite_arrows (arrowCount_tubeTriangles_le_one htwo draws) hfg
  · rw [hfaces]
    exact edgeCount_eq_one_iff hsides

namespace Setup

variable {s : Setup} {r : Interpretation}

/-- What instructions draw is made of open tubes, one for each instruction that draws. -/
theorem openTubes_of_interpret {is : List Instruction} (h : s.interpret is = .ok r) :
    r.mesh.OpenTubes s.settings.sides.toNat (is.countP Marks.instruction.draws) := by
  have hsides := three_le_sides h
  obtain ⟨-, m, hrun, rfl⟩ := interpret_eq_ok_iff.mp h
  exact Mesh.openTubes_of_indices hsides (Machine.vertexCount_of_start hrun)
    (Machine.indices_of_run hrun)

/-- **The topology of the mesh.**  Whatever is interpreted, the index buffer describes open
tubes, as many as segments are drawn. -/
theorem interpret_topology (s : Setup) :
    (∀ (word : String) (r : Interpretation), s.interpretText word = .ok r →
      r.mesh.OpenTubes s.settings.sides.toNat (word.toList.count 'F')) ∧
    ∀ (commands : CommandMap) (d : Derivation) (r : Interpretation),
      s.interpretModules commands d = .ok r →
      r.mesh.OpenTubes s.settings.sides.toNat
        (d.modules.toList.countP fun m => commands.get m.symbol == .draw) :=
  text_and_modules (P := fun draws r => r.mesh.OpenTubes s.settings.sides.toNat draws)
    fun _ _ h => openTubes_of_interpret h

/-- Two branches, and three sides, the fewest there may be. -/
theorem interpret_topology_triangular :
    let s : Setup := ⟨.standard, { TubeSettings.standard with sides := 3 }⟩
    ∃ r, s.interpretText "F[+F][-F" = .ok r ∧ r.mesh.OpenTubes 3 3 := by
  intro s
  obtain ⟨r, hr⟩ : ∃ r, s.interpretText "F[+F][-F" = .ok r := exists_result (by decide +kernel)
  exact ⟨r, hr, (interpret_topology s).1 _ r hr⟩

end Setup

end BranchingTubes
