import BranchingTubes.Proofs.Generations
import BranchingTubes.Proofs.IndexBuffer
import Mathlib

/-!
# Counting the symbols of a grown word

Productions rewrite all symbols of a word at once, so how often a symbol occurs afterwards
depends only on how often each symbol occurred before.  With the occurrences of all symbols
as a vector, a pass is the multiplication by one matrix (`census_apply`), and so many passes
are the multiplication by its power (`census_generates`).  The size of a mesh is read off the
occurrences of the symbol that draws.
-/

set_option autoImplicit false

namespace BranchingTubes

noncomputable instance fintypeChar : Fintype Char :=
  Fintype.ofInjective Char.val fun _ _ => Char.ext

/-- How often each symbol occurs in a word. -/
def census (word : String) : Char → ℕ := fun c => word.toList.count c

/-- A sum over the symbols of a word is a sum over all symbols, each as often as it occurs. -/
theorem sum_map_eq_sum_count (w : List Char) (f : Char → ℕ) :
    (w.map f).sum = ∑ a, w.count a * f a := by
  simp only [Finset.sum_list_map_count, smul_eq_mul]
  apply Finset.sum_subset (Finset.subset_univ _)
  intro a _ ha
  rw [List.count_eq_zero_of_not_mem (mt List.mem_toFinset.mpr ha), Nat.zero_mul]

namespace Productions

/-- How often a symbol occurs in the successor of another one; a symbol without a production
is its own successor. -/
def growthMatrix (p : Productions) : Matrix Char Char ℕ := fun a c =>
  match p.successor? a with
  | some successor => successor.toList.count c
  | none => if a = c then 1 else 0

/-- How often a symbol occurs after so many passes, by the power of the growth matrix. -/
noncomputable def predictedCount (p : Productions) (start : String) (passes : ℕ) (c : Char) : ℕ :=
  ∑ a, start.toList.count a * (p.growthMatrix ^ passes) a c

/-- The growth matrix counts what a symbol is rewritten to. -/
theorem count_expand (p : Productions) (a c : Char) :
    (p.expand a).count c = p.growthMatrix a c := by
  unfold expand growthMatrix
  cases p.successor? a with
  | some successor => rfl
  | none =>
    rw [List.count_singleton]
    simp

/-- One pass multiplies the occurrences by the growth matrix. -/
theorem census_apply (p : Productions) (word : String) :
    census (p.apply word) = Matrix.vecMul (census word) p.growthMatrix := by
  funext c
  calc census (p.apply word) c
      = (word.toList.map fun a => p.growthMatrix a c).sum := by
        unfold census apply
        rw [String.toList_ofList, List.count_flatMap]
        congr 1
        apply List.map_congr_left
        intro a _
        exact p.count_expand a c
    _ = ∑ a, word.toList.count a * p.growthMatrix a c := sum_map_eq_sum_count _ _
    _ = Matrix.vecMul (census word) p.growthMatrix c := rfl

/-- So many passes multiply the occurrences by that power of the growth matrix. -/
theorem census_generates {p : Productions} {grown : ℕ → String} (h : p.rule.Generates grown)
    (passes : ℕ) :
    census (grown passes) = Matrix.vecMul (census (grown 0)) (p.growthMatrix ^ passes) := by
  induction passes with
  | zero => rw [pow_zero, Matrix.vecMul_one]
  | succ passes ih =>
    have hnext : p.apply (grown passes) = grown (passes + 1) := Except.ok.inj (h passes)
    rw [← hnext, census_apply, ih, Matrix.vecMul_vecMul, ← pow_succ]

end Productions

/-- The mesh of a word has one tube for each `F` of it. -/
theorem Setup.isTubes_of_meshOfText {s : Setup} {word : String} {mesh : Mesh}
    (h : s.meshOfText word = .ok mesh) :
    mesh.IsTubes s.settings.sides.toNat (word.toList.count 'F') := by
  obtain ⟨r, hr, rfl⟩ := meshOfText_eq_ok_iff.mp h
  rw [← Marks.countP_draws_text]
  exact isTubes_of_interpret hr

namespace Grammar

/-- **The size of a mesh can be predicted.**  After so many passes of productions, a symbol
occurs as often as the power of the growth matrix says for the occurrences in the start word.
For the symbol that draws, this is the number of segments of every mesh built from the grown
word, and with the number of sides it gives those of vertices and triangles. -/
theorem grow_census (start : String) (p : Productions) (parameters : Parameters) (passes : ℕ) :
    ∃ word, grow ⟨start, p.rule, parameters⟩ passes = .ok word ∧
      (∀ c, word.toList.count c = p.predictedCount start passes c) ∧
      ∀ (s : Setup) (mesh : Mesh), s.meshOfText word = .ok mesh →
        let drawn := p.predictedCount start passes 'F'
        mesh.segments.size = drawn ∧
        mesh.vertices.size = 2 * s.settings.sides.toNat * drawn ∧
        mesh.triangles.length = 2 * s.settings.sides.toNat * drawn ∧
        mesh.triangleCount = 2 * s.settings.sides.toNat * drawn := by
  obtain ⟨grown, rfl, hpass⟩ := p.total_rule.exists_generates start
  have hcount : ∀ c, (grown passes).toList.count c = p.predictedCount (grown 0) passes c := by
    intro c
    exact congrFun (Productions.census_generates hpass passes) c
  refine ⟨grown passes, grow_eq rfl hpass passes, hcount, ?_⟩
  intro s mesh hmesh drawn
  have htubes := Setup.isTubes_of_meshOfText hmesh
  rw [hcount] at htubes
  refine ⟨htubes.segments, htubes.vertices, htubes.triangles, ?_⟩
  unfold Mesh.triangleCount
  rw [htubes.indices, Nat.div_eq_of_eq_mul_left (by decide)]
  ring

/-- Two productions, of which one doubles the segments that the other has drawn. -/
theorem grow_census_doubling :
    let p := Productions.ofList [('X', "F[+X]X"), ('F', "FF")]
    ∃ word mesh, grow ⟨"X", p.rule, .standard⟩ 2 = .ok word ∧
      p.predictedCount "X" 2 'F' = 4 ∧
      Setup.standard.meshOfText word = .ok mesh ∧ mesh.segments.size = 4 ∧
      mesh.vertices.size = 2 * 5 * 4 ∧ mesh.triangles.length = 2 * 5 * 4 ∧
      mesh.triangleCount = 2 * 5 * 4 := by
  intro p
  obtain ⟨word, hword, hcount, hsize⟩ := grow_census "X" p .standard 2
  have hgrown : grow ⟨"X", p.rule, .standard⟩ 2 = .ok "FF[+F[+X]X]F[+X]X" := by decide +kernel
  obtain rfl := Except.ok.inj (hgrown.symm.trans hword)
  have hfour : p.predictedCount "X" 2 'F' = 4 := by
    rw [← hcount]
    decide +kernel
  obtain ⟨r, hr⟩ : ∃ r, Setup.standard.interpretText "FF[+F[+X]X]F[+X]X" = .ok r :=
    Setup.exists_result (by decide +kernel)
  have hmesh : Setup.standard.meshOfText "FF[+F[+X]X]F[+X]X" = .ok r.mesh :=
    Setup.meshOfText_eq_ok_iff.mpr ⟨r, hr, rfl⟩
  obtain ⟨hsegments, hvertices, htriangles, htriangleCount⟩ := hsize .standard r.mesh hmesh
  rw [hfour] at hsegments hvertices htriangles htriangleCount
  exact ⟨_, r.mesh, hword, hfour, hmesh, hsegments, hvertices, htriangles, htriangleCount⟩

end Grammar

end BranchingTubes
