import Mathlib.Combinatorics.SimpleGraph.Clique
import Mathlib.Combinatorics.SimpleGraph.DegreeSum
import Mathlib.Tactic

/-!
# Triangles through a vertex

The link of a vertex is the graph among its neighbours.  Its edges are the
triangles through the vertex.  Whoever counts, for each neighbour, the
neighbours adjacent to it, counts every edge of the link twice.
-/

namespace Sectric.Lib

open Finset

variable {V : Type*} (G : SimpleGraph V)

/-- The graph among the neighbours of `x`. -/
def link (x : V) : SimpleGraph V where
  Adj u w := G.Adj u w ∧ G.Adj x u ∧ G.Adj x w
  symm := ⟨fun _ _ h => ⟨h.1.symm, h.2.2, h.2.1⟩⟩
  loopless := ⟨fun u h => G.loopless.irrefl u h.1⟩

variable {G}

theorem link_adj {x u w : V} : (link G x).Adj u w ↔ G.Adj u w ∧ G.Adj x u ∧ G.Adj x w := Iff.rfl

instance [DecidableRel G.Adj] (x : V) : DecidableRel (link G x).Adj := fun u w =>
  inferInstanceAs (Decidable (G.Adj u w ∧ G.Adj x u ∧ G.Adj x w))

variable [Fintype V] [DecidableEq V] [DecidableRel G.Adj]

/-! ## Edges of the link and triangles -/

omit [DecidableEq V] in
/-- The edges of the link are the pairs of neighbours that are adjacent. -/
theorem mem_edgeFinset_link {x : V} {e : Sym2 V} :
    e ∈ (link G x).edgeFinset ↔ e ∈ G.edgeFinset ∧ ∀ u ∈ e, G.Adj x u := by
  induction e with
  | h u w => simp [link_adj]

/-- An edge of the link together with the vertex is a triangle through the
vertex, and every such triangle is of this form. -/
theorem card_link_eq_card_triangles (x : V) :
    #(link G x).edgeFinset = #{t ∈ G.cliqueFinset 3 | x ∈ t} := by
  have hnot : ∀ e ∈ (link G x).edgeFinset, x ∉ e := by
    intro e he hx
    exact G.loopless.irrefl x ((mem_edgeFinset_link.mp he).2 x hx)
  refine card_bij (fun e _ => insert x e.toFinset) ?_ ?_ ?_
  · intro e he
    induction e with
    | h u w =>
        obtain ⟨hedge, hadj⟩ := mem_edgeFinset_link.mp he
        rw [mem_filter, SimpleGraph.mem_cliqueFinset_iff, Sym2.toFinset_mk_eq]
        refine ⟨SimpleGraph.is3Clique_triple_iff.mpr ⟨hadj u ?_, hadj w ?_, ?_⟩, mem_insert_self ..⟩
        · exact Sym2.mem_mk_left ..
        · exact Sym2.mem_mk_right ..
        · exact SimpleGraph.mem_edgeFinset.mp hedge
  · intro e he e' he' h
    have herase : (insert x e.toFinset).erase x = (insert x e'.toFinset).erase x := by rw [h]
    rw [erase_insert (by simpa using hnot e he),
      erase_insert (by simpa using hnot e' he')] at herase
    refine Sym2.ext fun u => ?_
    rw [← Sym2.mem_toFinset, herase, Sym2.mem_toFinset]
  · intro t ht
    obtain ⟨hclique, hx⟩ := mem_filter.mp ht
    rw [SimpleGraph.mem_cliqueFinset_iff] at hclique
    have hcard : #(t.erase x) = 2 := by rw [card_erase_of_mem hx, hclique.card_eq]
    obtain ⟨u, w, hne, herase⟩ := card_eq_two.mp hcard
    have hu : u ≠ x ∧ u ∈ t := mem_erase.mp (herase ▸ mem_insert_self u _)
    have hw : w ≠ x ∧ w ∈ t := mem_erase.mp (herase ▸ mem_insert_of_mem (mem_singleton_self w))
    have hadj : ∀ {a b}, a ∈ t → b ∈ t → a ≠ b → G.Adj a b := fun ha hb => hclique.isClique ha hb
    refine ⟨s(u, w), ?_, ?_⟩
    · rw [SimpleGraph.mem_edgeFinset, SimpleGraph.mem_edgeSet, link_adj]
      exact ⟨hadj hu.2 hw.2 hne, hadj hx hu.2 hu.1.symm, hadj hx hw.2 hw.1.symm⟩
    · rw [Sym2.toFinset_mk_eq, ← herase, insert_erase hx]

/-! ## Counting by neighbours -/

/-- The neighbours of `x` adjacent to one of them are its neighbours in the
link. -/
theorem degree_link {x : V} {l : List V} (hnodup : l.Nodup) (hmem : ∀ u, u ∈ l ↔ G.Adj x u) {u : V}
    (hu : G.Adj x u) : (link G x).degree u = l.countP fun w => decide (G.Adj u w) := by
  rw [← SimpleGraph.card_neighborFinset_eq_degree, List.countP_eq_length_filter,
    ← List.toFinset_card_of_nodup (hnodup.filter _)]
  congr 1
  ext w
  rw [SimpleGraph.mem_neighborFinset, link_adj, List.mem_toFinset, List.mem_filter, hmem]
  simp only [decide_eq_true_eq]
  tauto

/-- Every edge of the link is counted at both of its ends. -/
theorem sum_countP_adj {x : V} {l : List V} (hnodup : l.Nodup) (hmem : ∀ u, u ∈ l ↔ G.Adj x u) :
    (l.map fun u => l.countP fun w => decide (G.Adj u w)).sum = 2 * #(link G x).edgeFinset := by
  rw [← SimpleGraph.sum_degrees_eq_twice_card_edges, ← List.sum_toFinset _ hnodup]
  refine (sum_subset_zero_on_sdiff (subset_univ _) ?_ ?_)
  · intro u hu
    have hu : ¬ G.Adj x u := by simpa [hmem] using hu
    rw [SimpleGraph.degree_eq_zero_iff_notMem_support]
    rintro ⟨w, hw⟩
    exact hu hw.2.1
  · intro u hu
    exact (degree_link hnodup hmem ((hmem u).mp (List.mem_toFinset.mp hu))).symm

end Sectric.Lib
