import FormCompiler.Wasm.Module
import Mathlib.Logic.Relation

/-! Subtypes of structs. A module whose structs stand behind their supertypes and start with the fields of
these answers questions about subtypes rightly. -/

namespace FormCompiler.Wasm

namespace Module

variable {d : StructDef} {e : ArrayDef} {m : Module} {a b c steps : Nat}

def Above (m : Module) (sub sup : Nat) : Prop := ∃ d, m.struct? sub = some d ∧ d.supertype = some sup

abbrev Sub (m : Module) : Nat → Nat → Prop := Relation.ReflTransGen m.Above

/-- Structs stand behind their supertypes and continue their fields. -/
def Layered (m : Module) : Prop :=
  ∀ index d sup, m.struct? index = some d → d.supertype = some sup →
    sup < index ∧ ∃ e, m.struct? sup = some e ∧ e.fields <+: d.fields

/-- Functions have no say in which types are subtypes. -/
theorem isSubtype_funcs (m : Module) (funcs : Array Func) (a b : Nat) :
    Module.isSubtype { m with funcs } a b = m.isSubtype a b := by
  have hwithin : ∀ steps sub, Module.isSubtypeWithin { m with funcs } b steps sub = m.isSubtypeWithin b steps sub := by
    intro steps
    induction steps with
    | zero => exact fun _ => rfl
    | succ steps ih =>
      intro sub
      rw [isSubtypeWithin,isSubtypeWithin]
      simp only [ih]
      rfl
  exact hwithin _ _

theorem lt_size_of_struct? (h : m.struct? a = some d) : a < m.types.size := by
  apply Classical.byContradiction
  intro hn
  simp [struct?,Array.getElem?_eq_none (Nat.le_of_not_lt hn)] at h

theorem lt_size_of_array? {d : ArrayDef} (h : m.array? a = some d) : a < m.types.size := by
  apply Classical.byContradiction
  intro hn
  simp [array?,Array.getElem?_eq_none (Nat.le_of_not_lt hn)] at h

theorem array?_ne_struct? (h : m.struct? a = some d) : m.array? a ≠ some e := by
  unfold struct? at h
  unfold array?
  split at h
  · rename_i ht
    simp [ht]
  · cases h

private theorem sub_of_within (h : m.isSubtypeWithin b steps a = true) : m.Sub a b := by
  induction steps generalizing a with
  | zero =>
    simp only [isSubtypeWithin,decide_eq_true_eq] at h
    exact h ▸ .refl
  | succ steps ih =>
    simp only [isSubtypeWithin] at h
    split at h
    · rename_i he
      exact he ▸ .refl
    · cases hs : (m.struct? a).bind (·.supertype) with
      | none => simp [hs] at h
      | some next =>
        simp only [hs] at h
        obtain ⟨d,hd,hn⟩ := Option.bind_eq_some_iff.mp hs
        exact .head ⟨d,hd,hn⟩ (ih h)

private theorem within_of_sub (hm : m.Layered) (h : m.Sub a b) (hs : a < steps) :
    m.isSubtypeWithin b steps a = true := by
  induction h using Relation.ReflTransGen.head_induction_on generalizing steps with
  | refl => cases steps <;> simp [isSubtypeWithin]
  | head hstep _ ih =>
    obtain ⟨d,hd,hsup⟩ := hstep
    have hlt := (hm _ d _ hd hsup).1
    obtain ⟨n,rfl⟩ : ∃ n, steps = n + 1 := ⟨steps - 1,by omega⟩
    simp only [isSubtypeWithin,hd,Option.bind_some,hsup]
    split
    · rfl
    · exact ih (by omega)

/-- A walk that is long enough answers as a longer one does. -/
theorem isSubtypeWithin_eq (hm : m.Layered) (ha : a < m.types.size) (hs : m.types.size ≤ steps) :
    m.isSubtypeWithin b steps a = m.isSubtype a b := by
  rw [Bool.eq_iff_iff]
  exact ⟨fun h => within_of_sub hm (sub_of_within h) (by omega),fun h => within_of_sub hm (sub_of_within h) (by omega)⟩

/-- The walk through declared supertypes finds all of them. -/
theorem isSubtype_iff (hm : m.Layered) : m.isSubtype a b = true ↔ m.Sub a b := by
  refine ⟨sub_of_within,fun h => ?_⟩
  by_cases ha : a < m.types.size
  · exact within_of_sub hm h (by omega)
  · rcases Relation.ReflTransGen.cases_head h with rfl | ⟨c,⟨d,hd,_⟩,_⟩
    · simp [isSubtype,isSubtypeWithin]
    · exact absurd (lt_size_of_struct? hd) ha

theorem isSubtype_refl (m : Module) (a : Nat) : m.isSubtype a a = true := by
  simp [isSubtype,isSubtypeWithin]

section

variable (hm : m.Layered) (h : m.isSubtype a b = true)
include hm h

theorem isSubtype_trans (k : m.isSubtype b c = true) : m.isSubtype a c = true :=
  (isSubtype_iff hm).mpr (((isSubtype_iff hm).mp h).trans ((isSubtype_iff hm).mp k))

/-- A struct starts with the fields of each struct above it. -/
theorem fields_of_isSubtype {e : StructDef}
    (he : m.struct? b = some e) : ∃ d, m.struct? a = some d ∧ e.fields <+: d.fields := by
  have hs := (isSubtype_iff hm).mp h
  induction hs using Relation.ReflTransGen.head_induction_on with
  | refl => exact ⟨e,he,List.prefix_rfl⟩
  | head hstep hrest ih =>
    obtain ⟨d,hd,hsup⟩ := hstep
    obtain ⟨_,d',hd',hp⟩ := hm _ d _ hd hsup
    obtain ⟨d'',hd'',hp'⟩ := ih ((isSubtype_iff hm).mpr hrest)
    cases hd'.symm.trans hd''
    exact ⟨d,hd,hp'.trans hp⟩

/-- Arrays have no subtypes but themselves. -/
theorem eq_of_isSubtype_array (he : m.array? b = some e) : a = b := by
  rcases Relation.ReflTransGen.cases_tail ((isSubtype_iff hm).mp h) with rfl | ⟨c,_,d,hd,hsup⟩
  · rfl
  · obtain ⟨_,d',hd',_⟩ := hm c d b hd hsup
    exact absurd he (array?_ne_struct? hd')

end

end Module

def ValueType.isKnown (m : Module) : ValueType → Bool
  | .ref type => type < m.types.size
  | _ => true

/-- Whether a value of the first type can stand where one of the second is expected. -/
def ValueType.fits (m : Module) : ValueType → ValueType → Bool
  | .ref sub, .ref sup => m.isSubtype sub sup
  | found, wanted => found = wanted

def resultFits (m : Module) : Option ValueType → Option ValueType → Bool
  | some found, some wanted => found.fits m wanted
  | none, none => true
  | _, _ => false

def allFit (m : Module) : List ValueType → List ValueType → Bool
  | [], [] => true
  | found :: founds, wanted :: wanteds => found.fits m wanted && allFit m founds wanteds
  | _, _ => false

theorem ValueType.fits_refl (m : Module) (t : ValueType) : t.fits m t = true := by
  cases t <;> simp [fits,Module.isSubtype_refl]

end FormCompiler.Wasm
