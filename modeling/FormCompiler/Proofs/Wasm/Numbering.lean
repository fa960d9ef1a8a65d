import FormCompiler.Wasm.Binary
import Mathlib.Data.List.Basic

/-! The numbers that functions have in the binary: those of the host come first, and otherwise the order stays. -/

namespace FormCompiler.Wasm.Module

open List

theorem length_numberFrom (fs : List Func) (a b : Nat) : (numberFrom a b fs).length = fs.length := by
  induction fs generalizing a b with
  | nil => rfl
  | cons f fs ih =>
    rw [numberFrom]
    split <;> simp [ih]

/-- Numbering from two counters counts the functions of either kind. -/
theorem zip_numberFrom {α : Type} (func : α → Func) (l : List α) (a b : Nat) : (l.zip (numberFrom a b (l.map func))).Perm
    ((l.filter fun x => (func x).host?.isSome).zipIdx a ++ (l.filter fun x => (func x).host?.isNone).zipIdx b) := by
  induction l generalizing a b with
  | nil => exact .refl _
  | cons x l ih =>
    cases hx : (func x).host? with
    | some host => simpa [numberFrom,hx] using ih (a + 1) b
    | none => simpa [numberFrom,hx] using ((ih a (b + 1)).cons (x, b)).trans perm_middle.symm

/-- The functions with their places, in the order of the binary. -/
def arranged (m : Module) : List (Nat × Func) :=
  m.numbered.filter (·.2.host?.isSome) ++ m.numbered.filter (·.2.host?.isNone)

variable {m : Module} {i n : Nat} {f : Func}

theorem map_numbered : m.numbered.map (·.2) = m.funcs.toList := by
  simp [numbered,Function.comp_def]

/-- The number of a function is where it stands in the order of the binary. -/
theorem zip_binaryIndices : (m.numbered.zip m.binaryIndices).Perm m.arranged.zipIdx := by
  have h := zip_numberFrom (·.2) m.numbered 0 (m.numbered.filter (·.2.host?.isSome)).length
  rw [map_numbered] at h
  have hcount : m.funcs.toList.countP (·.host?.isSome) = (m.numbered.filter (·.2.host?.isSome)).length := by
    rw [← map_numbered,countP_map,countP_eq_length_filter]
    rfl
  rw [binaryIndices,hcount,arranged,zipIdx_append,Nat.zero_add]
  exact h

theorem length_binaryIndices : m.binaryIndices.length = m.funcs.size := by simp [binaryIndices,length_numberFrom]

theorem length_arranged : m.arranged.length = m.funcs.size := by
  simpa [numbered,length_binaryIndices] using (@zip_binaryIndices m).length_eq.symm

theorem binaryIndices_perm (m : Module) : m.binaryIndices.Perm (List.range m.funcs.size) := by
  have h := (@zip_binaryIndices m).map Prod.snd
  rwa [map_snd_zip (by simp [numbered,length_binaryIndices]),zipIdx_map_snd,length_arranged, ← range_eq_range'] at h

theorem arranged_get (hf : m.funcs[i]? = some f) (hn : m.binaryIndices[i]? = some n) : m.arranged[n]? = some (i, f) := by
  have hi : m.numbered[i]? = some (i, f) := by simp [numbered,hf]
  have hmem : ((i, f), n) ∈ m.numbered.zip m.binaryIndices := mem_of_getElem? (getElem?_zip_eq_some.mpr ⟨hi,hn⟩)
  exact mk_mem_zipIdx_iff_getElem?.mp (zip_binaryIndices.mem_iff.mp hmem)

/-- Functions of the host come first; otherwise the order stays. -/
def Precedes (x y : Nat × Func) : Prop :=
  x.2.host?.isSome = true ∧ y.2.host?.isSome = false ∨ x.2.host?.isSome = y.2.host?.isSome ∧ x.1 < y.1

theorem pairwise_arranged (m : Module) : m.arranged.Pairwise Precedes := by
  have hplaces : m.numbered.map (·.1) = List.range m.funcs.size := by simp [numbered,Function.comp_def,range_eq_range']
  have hnumbered : m.numbered.Pairwise (·.1 < ·.1) := pairwise_map.mp (hplaces ▸ pairwise_lt_range)
  refine pairwise_append.mpr ⟨?_,?_,fun x hx y hy => .inl ?_⟩
  · refine (List.Pairwise.filter _ hnumbered).imp_of_mem fun hx hy hlt => .inr ⟨?_,hlt⟩
    rw [(mem_filter.mp hx).2,(mem_filter.mp hy).2]
  · refine (List.Pairwise.filter _ hnumbered).imp_of_mem fun hx hy hlt => .inr ⟨?_,hlt⟩
    rw [← Option.not_isNone,← Option.not_isNone,(mem_filter.mp hx).2,(mem_filter.mp hy).2]
  · simpa using And.intro (mem_filter.mp hx).2 (mem_filter.mp hy).2

/-- Which of two functions has the smaller number. -/
theorem binaryIndices_lt_iff {j k : Nat} {g : Func} (hf : m.funcs[i]? = some f) (hg : m.funcs[j]? = some g)
    (hn : m.binaryIndices[i]? = some n) (hk : m.binaryIndices[j]? = some k) : n < k ↔ Precedes (i, f) (j, g) := by
  have hx := arranged_get hf hn
  have hy := arranged_get hg hk
  have hlt : ∀ {n k : Nat} {x y : Nat × Func}, m.arranged[n]? = some x → m.arranged[k]? = some y → n < k → Precedes x y := by
    intro n k x y hx hy h
    obtain ⟨hn,rfl⟩ := List.getElem?_eq_some_iff.mp hx
    obtain ⟨hk,rfl⟩ := List.getElem?_eq_some_iff.mp hy
    exact pairwise_iff_getElem.mp (pairwise_arranged m) n k hn hk h
  refine ⟨hlt hx hy,fun h => ?_⟩
  rcases Nat.lt_trichotomy n k with hnk | rfl | hnk
  · exact hnk
  · cases hx.symm.trans hy
    unfold Precedes at h
    grind
  · have h' := hlt hy hx hnk
    unfold Precedes at h h'
    grind

end FormCompiler.Wasm.Module
