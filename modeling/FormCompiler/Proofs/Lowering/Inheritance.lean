import FormCompiler.Proofs.Lowering.Objects

/-! Structs and inheritance. The structs of objects are declared behind those of their parents and start
with the same fields, and one struct is below another exactly if its object extends the other's. -/

namespace FormCompiler

open EntityTable

open Wasm (FieldDef Module StructDef)

namespace Lower

variable {p : Program} {s : Emission} {id a b : EntityId} {n i j : Nat}

/-- Fields that stand for fields of a layout are determined by them. -/
private theorem fieldDefs_prefix {xs ys : List Field} {ds es : List FieldDef} (hp : xs <+: ys)
    (hx : List.Forall₂ (fun field def_ => fieldDef? s field = some def_) xs ds)
    (hy : List.Forall₂ (fun field def_ => fieldDef? s field = some def_) ys es) : ds <+: es := by
  induction hx generalizing ys es with
  | nil => exact List.nil_prefix
  | cons hd _ ih =>
    cases hy with
    | nil => simp at hp
    | cons hd' hrest =>
      obtain ⟨rfl,hp'⟩ := List.cons_prefix_cons.mp hp
      cases hd.symm.trans hd'
      exact List.cons_prefix_cons.mpr ⟨rfl,ih hp' hrest⟩

namespace Populated

section

variable (h : Populated p s)
include h

theorem lookup_iff (hI : p.Inv) : (∃ n, s.structs.lookup id = some n) ↔ ∃ chain, Chain p.entities id chain := by
  constructor
  · rintro ⟨n,hn⟩
    obtain ⟨k,chain,_,hk⟩ := (h.lookup id n).mp hn
    exact ⟨chain,(mem_objectsInOrder hI).mp (List.mem_of_getElem? hk)⟩
  · rintro ⟨chain,hc⟩
    obtain ⟨k,hk⟩ := List.mem_iff_getElem?.mp ((mem_objectsInOrder hI).mpr hc)
    exact ⟨k + 1,(h.lookup id _).mpr ⟨k,chain,rfl,hk⟩⟩

theorem lookup_inj (ha : s.structs.lookup a = some n) (hb : s.structs.lookup b = some n) : a = b := by
  obtain ⟨j,c,rfl,hj⟩ := (h.lookup a n).mp ha
  obtain ⟨k,c',hk,hk'⟩ := (h.lookup b _).mp hb
  cases Nat.succ.inj hk
  rw [hj] at hk'
  cases hk'
  rfl

/-- The struct of an object. -/
theorem struct? (hn : s.structs.lookup id = some n) :
    ∃ name fields, s.module.struct? n = some ⟨name,fields,superOf p s.structs id⟩ ∧ StructFields p s 0 id fields := by
  obtain ⟨k,chain,rfl,hk⟩ := (h.lookup id n).mp hn
  obtain ⟨name,fields,ht,hf⟩ := h.struct k id chain hk
  exact ⟨name,fields,by simp [Module.struct?,ht],hf⟩

/-- Structs are those of objects. -/
theorem object_of_struct? {d : StructDef} (hd : s.module.struct? n = some d) : ∃ id, s.structs.lookup id = some n := by
  have ht : s.module.types[n]? = some (.struct d) := by
    unfold Module.struct? at hd
    split at hd
    · rename_i ht
      rw [ht,Option.some.inj hd]
    · cases hd
  obtain ⟨k,rfl,hk⟩ := h.only n d ht
  exact ⟨(objectsInOrder p)[k].1,(h.lookup _ _).mpr ⟨k,_,rfl,List.getElem?_eq_getElem hk⟩⟩

/-- The declared supertype of an object's struct is the struct of its parent. -/
theorem above_iff (ha : s.structs.lookup a = some i) :
    s.module.Above i j ↔ ∃ b, p.entities.Parent a b ∧ s.structs.lookup b = some j := by
  obtain ⟨name,fields,hs,_⟩ := h.struct? ha
  constructor
  · rintro ⟨d,hd,hsup⟩
    cases hs.symm.trans hd
    obtain ⟨b,hb,hl⟩ := Option.bind_eq_some_iff.mp hsup
    obtain ⟨d,hd,hp⟩ := Option.bind_eq_some_iff.mp hb
    exact ⟨b,⟨d,object?_eq_some.mp hd,hp⟩,hl⟩
  · rintro ⟨b,⟨d,hk,hp⟩,hl⟩
    exact ⟨_,hs,by simp [superOf,object?_eq_some.mpr hk,hp,hl]⟩

theorem layered (hI : p.Inv) : s.module.Layered := by
  intro index d sup hd hsup
  obtain ⟨id,hid⟩ := h.object_of_struct? hd
  obtain ⟨above,⟨o,hk,hp⟩,hl⟩ := (h.above_iff hid).mp ⟨d,hd,hsup⟩
  obtain ⟨k,chain,rfl,hko⟩ := (h.lookup id _).mp hid
  obtain ⟨j,hj,chain',hjo⟩ := parent_before hI hko hk hp
  have hsup' := (h.lookup above _).mpr ⟨j,chain',rfl,hjo⟩
  cases hl.symm.trans hsup'
  obtain ⟨_,fields,hs,defs,rfl,hf⟩ := h.struct? hid
  cases hs.symm.trans hd
  obtain ⟨name',fields',hs',defs',rfl,hf'⟩ := h.struct? hl
  refine ⟨Nat.succ_lt_succ hj,_,hs',List.cons_prefix_cons.mpr ⟨rfl, fieldDefs_prefix ?_ hf' hf⟩⟩
  have hdone : o.stage = .done := by
    obtain ⟨o',hk',hd'⟩ := ((mem_objectsInOrder hI).mp (List.mem_of_getElem? hko)).isDone
    cases hk.symm.trans hk'
    exact hd'
  obtain ⟨e,hke,_,hpre⟩ := (hI.objectOk hk).inherited above hdone hp
  simpa [object?_eq_some.mpr hk,object?_eq_some.mpr hke] using hpre

private theorem sub_of_extends (hI : p.Inv) (he : p.entities.Extends a b)
    (ha : s.structs.lookup a = some i) (hb : s.structs.lookup b = some j) : s.module.Sub i j := by
  induction he using Relation.ReflTransGen.head_induction_on generalizing i with
  | refl =>
    cases ha.symm.trans hb
    exact .refl
  | @head a c hstep _ ih =>
    obtain ⟨d,hk,hp⟩ := hstep
    obtain ⟨k,hc⟩ := (h.lookup_iff hI).mpr (hI.founded a d c hk hp)
    exact .head ((h.above_iff ha).mpr ⟨c,⟨d,hk,hp⟩,hc⟩) (ih hc)

private theorem extends_of_sub (he : s.module.Sub i j)
    (ha : s.structs.lookup a = some i) (hb : s.structs.lookup b = some j) : p.entities.Extends a b := by
  induction he using Relation.ReflTransGen.head_induction_on generalizing a with
  | refl =>
    cases h.lookup_inj ha hb
    exact .refl
  | head hstep _ ih =>
    obtain ⟨c,hp,hc⟩ := (h.above_iff ha).mp hstep
    exact .head hp (ih hc)

/-- One struct is below another exactly if its object extends the other's. -/
theorem isSubtype_iff (hI : p.Inv) (ha : s.structs.lookup a = some i)
    (hb : s.structs.lookup b = some j) : s.module.isSubtype i j = true ↔ p.entities.Extends a b := by
  rw [Module.isSubtype_iff (h.layered hI)]
  exact ⟨fun he => h.extends_of_sub he ha hb,fun he => h.sub_of_extends hI he ha hb⟩

/-- The struct of the base of all objects is above every other. -/
theorem isSubtype_base (hI : p.Inv) (ha : s.structs.lookup a = some i)
    (hb : s.structs.lookup Program.objectId = some j) : s.module.isSubtype i j = true := by
  obtain ⟨chain,hc⟩ := (h.lookup_iff hI).mp ⟨i,ha⟩
  refine (h.isSubtype_iff hI ha hb).mpr ?_
  clear ha
  induction hc with
  | base hk hd hp => exact (hI.objectOk hk).base hd hp ▸ .refl
  | step hk _ hp _ ih => exact .head ⟨_,hk,hp⟩ ih

end

end Populated

theorem Objects.layered (h : Objects p s) (hI : p.Inv) : s.module.Layered := by
  rcases h with h | h
  · exact h.layered hI
  · intro index d sup hd _
    unfold Module.struct? at hd
    split at hd
    · rename_i ht
      exact absurd ht (h.only index _)
    · cases hd

end Lower

end FormCompiler
