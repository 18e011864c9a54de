import BranchingTubes.Mesh.Basic
import Mathlib

/-!
# Triangles that are gone round

A triangle has three corners and is gone round in their order, along three arrows.  When
no arrow is taken by more than one triangle of a list, the list is consistently oriented:
an edge lies in as many triangles as take it in the one direction and in the other
(`edgeCount_eq`), hence in two at most, and these go along it in opposite directions
(`exists_opposite_arrows`).
-/

set_option autoImplicit false

namespace BranchingTubes

/-- A triangle, by the numbers of its corners in the order in which it is gone round. -/
structure Triangle where
  a : ℕ
  b : ℕ
  c : ℕ
  deriving DecidableEq

namespace Triangle

variable {t : Triangle} {u v : ℕ}

/-- The corners of a triangle, in order. -/
def corners (t : Triangle) : List ℕ := [t.a, t.b, t.c]

/-- The arrows along which a triangle is gone round. -/
def arrows (t : Triangle) : List (ℕ × ℕ) := [(t.a, t.b), (t.b, t.c), (t.c, t.a)]

/-- The edges of a triangle. -/
def edges (t : Triangle) : List (Sym2 ℕ) := t.arrows.map fun a => s(a.1, a.2)

/-- A triangle has three arrows, from each corner to the next. -/
theorem mem_arrows_iff {a : ℕ × ℕ} :
    a ∈ t.arrows ↔ a = (t.a, t.b) ∨ a = (t.b, t.c) ∨ a = (t.c, t.a) := by
  simp [arrows]

/-- The corners of a triangle are different if each differs from the next. -/
theorem nodup_corners_iff : t.corners.Nodup ↔ t.a ≠ t.b ∧ t.b ≠ t.c ∧ t.c ≠ t.a := by
  simp only [corners, List.nodup_cons, List.mem_cons, List.not_mem_nil, or_false, List.nodup_nil,
    not_false_eq_true, and_true]
  omega

/-- An edge of a triangle is one of its arrows, in one direction or the other. -/
theorem mem_edges_iff : s(u, v) ∈ t.edges ↔ (u, v) ∈ t.arrows ∨ (v, u) ∈ t.arrows := by
  simp only [edges, List.mem_map, Prod.exists, Sym2.eq_iff]
  constructor
  · rintro ⟨x, y, hmem, ⟨rfl, rfl⟩ | ⟨rfl, rfl⟩⟩
    · exact .inl hmem
    · exact .inr hmem
  · rintro (hmem | hmem)
    · exact ⟨u, v, hmem, .inl ⟨rfl, rfl⟩⟩
    · exact ⟨v, u, hmem, .inr ⟨rfl, rfl⟩⟩

/-- Every edge of a triangle comes from an arrow. -/
theorem exists_arrow_of_mem_edges {e : Sym2 ℕ} (h : e ∈ t.edges) :
    ∃ u v, e = s(u, v) ∧ (u, v) ∈ t.arrows := by
  obtain ⟨⟨u, v⟩, hmem, rfl⟩ := List.mem_map.mp h
  exact ⟨u, v, rfl, hmem⟩

/-- A triangle with distinct corners does not go along an edge twice. -/
theorem swap_not_mem_arrows (h : t.corners.Nodup) (huv : (u, v) ∈ t.arrows) :
    (v, u) ∉ t.arrows := by
  rw [nodup_corners_iff] at h
  simp only [mem_arrows_iff, Prod.mk.injEq] at huv ⊢
  omega

end Triangle

variable {ts : List Triangle}

/-- The number of triangles that an edge lies in. -/
def edgeCount (ts : List Triangle) (e : Sym2 ℕ) : ℕ := ts.countP (e ∈ ·.edges)

/-- The number of triangles that go along an arrow. -/
def arrowCount (ts : List Triangle) (a : ℕ × ℕ) : ℕ := ts.countP (a ∈ ·.arrows)

/-- An arrow is counted if some triangle has it. -/
theorem arrowCount_pos_iff {a : ℕ × ℕ} : 0 < arrowCount ts a ↔ ∃ t ∈ ts, a ∈ t.arrows := by
  simp [arrowCount, List.countP_pos_iff]

/-- An edge lies in the triangles that go along it in one direction or the other. -/
theorem edgeCount_eq (h : ∀ t ∈ ts, t.corners.Nodup) (u v : ℕ) :
    edgeCount ts s(u, v) = arrowCount ts (u, v) + arrowCount ts (v, u) := by
  induction ts with
  | nil => rfl
  | cons t ts ih =>
    have hrest := ih fun t' ht' => h t' (List.mem_cons_of_mem _ ht')
    simp only [edgeCount, arrowCount, List.countP_cons, Triangle.mem_edges_iff] at hrest ⊢
    rw [hrest]
    by_cases huv : (u, v) ∈ t.arrows
    · have hvu := Triangle.swap_not_mem_arrows (h t (by simp)) huv
      simp only [huv, hvu, or_false, decide_true, decide_false, Bool.false_eq_true, if_true,
        if_false]
      omega
    · simp only [huv, false_or, decide_false, Bool.false_eq_true, if_false]
      omega

/-- No arrow is taken twice by named triangles when each arrow belongs to one name. -/
theorem arrowCount_map_le_one {ι : Type} {names : List ι} {f : ι → Triangle} {a : ℕ × ℕ}
    (hnames : names.Nodup)
    (h : ∀ n ∈ names, ∀ n' ∈ names, a ∈ (f n).arrows → a ∈ (f n').arrows → n = n') :
    arrowCount (names.map f) a ≤ 1 := by
  induction names with
  | nil => simp [arrowCount]
  | cons n names ih =>
    obtain ⟨hn, hnames⟩ := List.nodup_cons.mp hnames
    by_cases ha : a ∈ (f n).arrows
    · have hnone : arrowCount (names.map f) a = 0 := by
        rw [arrowCount, List.countP_map, List.countP_eq_zero]
        intro n' hn' ha'
        have hsame := h n (by simp) n' (List.mem_cons_of_mem _ hn') ha (by simpa using ha')
        exact hn (hsame ▸ hn')
      rw [arrowCount] at hnone
      simp [arrowCount, ha, hnone]
    · have hrest := ih hnames fun n hn n' hn' =>
        h n (List.mem_cons_of_mem _ hn) n' (List.mem_cons_of_mem _ hn')
      rw [arrowCount] at hrest
      simpa [arrowCount, ha] using hrest

/-- Two triangles that share an edge go along it in opposite directions, when no arrow is
taken twice. -/
theorem exists_opposite_arrows (h : ∀ a, arrowCount ts a ≤ 1) {e : Sym2 ℕ} {f g : Triangle}
    (hfg : ts.filter (e ∈ ·.edges) = [f, g]) :
    ∃ u v, e = s(u, v) ∧ (u, v) ∈ f.arrows ∧ (v, u) ∈ g.arrows := by
  have hmem : ∀ t ∈ [f, g], e ∈ t.edges := by
    intro t ht
    rw [← hfg] at ht
    simpa using (List.mem_filter.mp ht).2
  have htwice : ∀ a, ¬ (a ∈ f.arrows ∧ a ∈ g.arrows) := by
    rintro a ⟨hf, hg⟩
    have hcount : [f, g].countP (a ∈ ·.arrows) ≤ arrowCount ts a :=
      hfg ▸ List.filter_sublist.countP_le
    have := h a
    simp [hf, hg] at hcount
    omega
  obtain ⟨u, v, rfl, huv⟩ := Triangle.exists_arrow_of_mem_edges (hmem f (by simp))
  refine ⟨u, v, rfl, huv, ?_⟩
  rcases Triangle.mem_edges_iff.mp (hmem g (by simp)) with hg | hg
  · exact absurd ⟨huv, hg⟩ (htwice (u, v))
  · exact hg

end BranchingTubes
