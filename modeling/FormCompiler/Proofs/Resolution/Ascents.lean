import FormCompiler.Proofs.Resolution.Tables
import Mathlib.Data.List.Nodup
import Mathlib.Data.List.Perm.Subperm
import Mathlib.Logic.Relation

/-! Kept chains of ancestors. A type argument may name a generic object, and so may the parent of an instance then; the
way up from a finished object ends at the base type or at such an object, which never gets a parent. Chains are kept
only of finished objects, so what is kept is what the table of entities gives at any later time. -/

namespace FormCompiler

open List

namespace EntityTable

def Parent (t : EntityTable) (a b : EntityId) : Prop :=
  ∃ d, t.kind a = .object d ∧ d.parent = some b

/-- `b` is the type `a` or above it. -/
def Extends (t : EntityTable) : EntityId → EntityId → Prop := Relation.ReflTransGen t.Parent

/-- The way up from a finished object, to an object without a parent that is finished or generic. -/
inductive Ascent (t : EntityTable) : EntityId → List EntityId → Prop
  | top {id : EntityId} {d : ObjectDef} : t.kind id = .object d → d.parent = none →
      d.stage = .done ∨ d.isGeneric = true → Ascent t id [id]
  | step {id above : EntityId} {d : ObjectDef} {l : List EntityId} : t.kind id = .object d → d.stage = .done →
      d.parent = some above → Ascent t above l → Ascent t id (id :: l)

variable {t : EntityTable} {id x above : EntityId} {l m : List EntityId}

/-! The list of what an object extends, from that of its parent. -/

private theorem mem_top (h : ∀ above, ¬ t.Parent id above) : x ∈ [id] ↔ t.Extends id x := by
  rw [mem_singleton,Extends,Relation.ReflTransGen.cases_head_iff]
  exact ⟨fun he => .inl he.symm,fun he => he.elim Eq.symm fun ⟨_,hp,_⟩ => absurd hp (h _)⟩

private theorem mem_step (h : t.Parent id above) (hl : x ∈ l ↔ t.Extends above x) : x ∈ id :: l ↔ t.Extends id x := by
  rw [mem_cons,hl,show t.Extends id x ↔ _ from Relation.ReflTransGen.cases_head_iff]
  refine or_congr eq_comm ⟨fun he => ⟨above,h,he⟩,?_⟩
  rintro ⟨other,⟨d,hd,hother⟩,he⟩
  obtain ⟨e,hk,habove⟩ := h
  cases hk.symm.trans hd
  cases habove.symm.trans hother
  exact he

private theorem pairwise_step (h : t.Parent id above) (hl : ∀ x, x ∈ l ↔ t.Extends above x)
    (hpair : l.Pairwise t.Extends) : (id :: l).Pairwise t.Extends :=
  pairwise_cons.mpr ⟨fun x hx => .head h ((hl x).mp hx),hpair⟩

namespace Ascent

section

variable (h : t.Ascent id l)
include h

private theorem object : ∃ d, t.kind id = .object d ∧ (d.stage = .done ∨ d.isGeneric = true) := by
  cases h with
  | top hk _ hd => exact ⟨_,hk,hd⟩
  | step hk hd _ _ => exact ⟨_,hk,.inl hd⟩

theorem unique (h' : t.Ascent id m) : l = m := by
  induction h generalizing m with
  | top hk hp _ =>
    cases h' with
    | top => rfl
    | step hk' _ hp' _ =>
      cases hk.symm.trans hk'
      cases hp.symm.trans hp'
  | step hk _ hp _ ih =>
    cases h' with
    | top hk' hp' _ =>
      cases hk.symm.trans hk'
      cases hp.symm.trans hp'
    | step hk' _ hp' hc' =>
      cases hk.symm.trans hk'
      cases hp.symm.trans hp'
      rw [ih hc']

private theorem of_mem (hx : x ∈ l) : ∃ m, t.Ascent x m ∧ m.length ≤ l.length := by
  induction h with
  | top hk hp hd =>
    cases mem_singleton.mp hx
    exact ⟨_,.top hk hp hd,Nat.le_refl _⟩
  | step hk hd hp hc ih =>
    rcases mem_cons.mp hx with rfl | hx
    · exact ⟨_,.step hk hd hp hc,Nat.le_refl _⟩
    · obtain ⟨m,hm,hl⟩ := ih hx
      exact ⟨m,hm,Nat.le_succ_of_le hl⟩

theorem nodup : l.Nodup := by
  induction h with
  | top => exact nodup_singleton _
  | step hk hd hp hc ih =>
    refine nodup_cons.mpr ⟨fun hm => ?_,ih⟩
    -- an object above itself would have two ways up of different length
    obtain ⟨m,hm,hl⟩ := hc.of_mem hm
    have he := congrArg List.length (hm.unique (.step hk hd hp hc))
    simp only [length_cons] at he
    omega

theorem length_le_size : l.length ≤ t.size := by
  have hs : l.map EntityId.index ⊆ List.range t.size := by
    intro n hn
    obtain ⟨x,hx,rfl⟩ := mem_map.mp hn
    obtain ⟨m,hm,_⟩ := h.of_mem hx
    obtain ⟨d,hk,_⟩ := hm.object
    exact mem_range.mpr (lt_size_of_kind (by simp [hk]))
  have hn : (l.map EntityId.index).Nodup := h.nodup.map fun a b hab => by cases a; cases b; simp_all
  simpa using (subperm_of_subset hn hs).length_le

/-- A way up leads through exactly what its first type extends. -/
theorem mem_iff : x ∈ l ↔ t.Extends id x := by
  induction h with
  | top hk hp _ =>
    refine mem_top fun above ⟨d,hd,habove⟩ => ?_
    cases hk.symm.trans hd
    cases hp.symm.trans habove
  | step hk _ hp _ ih => exact mem_step ⟨_,hk,hp⟩ ih

private theorem pairwise : l.Pairwise t.Extends := by
  induction h with
  | top => exact pairwise_singleton _ _
  | step hk hd hp hrest ih => exact pairwise_step ⟨_,hk,hp⟩ (fun _ => hrest.mem_iff) ih

/-- A way up stays while finished objects keep their parents and generic ones get none. -/
theorem mono {u : EntityTable} (hk : ∀ id d, t.kind id = .object d → ∃ e, u.kind id = .object e ∧
      (d.stage = .done → e.stage = .done ∧ e.parent = d.parent) ∧
      (d.isGeneric = true → e.isGeneric = true ∧ e.parent = none)) : u.Ascent id l := by
  induction h with
  | top hid hp hd =>
    obtain ⟨e,he,hdone,hgeneric⟩ := hk _ _ hid
    rcases hd with hd | hd
    · exact .top he ((hdone hd).2.trans hp) (.inl (hdone hd).1)
    · exact .top he (hgeneric hd).2 (.inr (hgeneric hd).1)
  | step hid hd hp _ ih =>
    obtain ⟨e,he,hdone,_⟩ := hk _ _ hid
    exact .step he (hdone hd).1 ((hdone hd).2.trans hp) ih

end

end Ascent

/-- Parents have a way up before their children name them. -/
def Anchored (t : EntityTable) : Prop :=
  ∀ id d above, t.kind id = .object d → d.parent = some above → ∃ l, t.Ascent above l

end EntityTable

namespace Ancestry

open EntityTable

/-- Every kept chain is the way up from its type. -/
def Keeps (t : EntityTable) (a : Ancestry) : Prop := ∀ id l, a.chains.lookup id = some l → t.Ascent id l

variable {t : EntityTable} {a : Ancestry} {id : EntityId} {l : List EntityId}

def Kept (K : EntityId → List EntityId → Prop) (a : Ancestry) : Prop := ∀ id l, a.chains.lookup id = some l → K id l

section Kept

variable {K : EntityId → List EntityId → Prop} (hK : ∀ id l, K id l → t.Ascent id l)
  (hdone : ∀ id d l, t.Ascent id l → t.kind id = .object d → d.stage = .done → K id l)

private theorem Kept.insert (h : a.Kept K) (hc : K id l) : Kept K ⟨(id, l) :: a.chains⟩ := by
  intro x m hx
  rw [lookup_cons] at hx
  split at hx
  · rename_i he
    cases hx
    rw [beq_iff_eq] at he
    exact he ▸ hc
  · exact h x m hx

include hK hdone

/-- Following parents gives the way up, whatever chains are kept. -/
theorem chainWithin_ascent (hc : t.Ascent id l) {steps : Nat} (hs : l.length ≤ steps) (ha : a.Kept K) :
    (chainWithin t steps a id).1 = l ∧ (chainWithin t steps a id).2.Kept K := by
  induction hc generalizing steps a with
  | @top id d hk hp hd =>
    obtain ⟨steps,rfl⟩ := Nat.exists_eq_add_of_lt (show 0 < steps from hs)
    simp only [chainWithin,Nat.zero_add]
    cases hl : a.chains.lookup id with
    | some m => exact ⟨(hK id m (ha id m hl)).unique (.top hk hp hd),ha⟩
    | none =>
      simp only [object?_eq_some.mpr hk,Option.bind_some,hp]
      split
      · rename_i hs
        exact ⟨rfl,ha.insert (hdone id d _ (.top hk hp hd) hk (by simpa using hs))⟩
      · exact ⟨rfl,ha⟩
  | @step id above d l hk hd hp hc ih =>
    obtain ⟨steps,rfl⟩ := Nat.exists_eq_add_of_lt (show 0 < steps from Nat.lt_of_lt_of_le (Nat.succ_pos _) hs)
    simp only [chainWithin,Nat.zero_add]
    cases hl : a.chains.lookup id with
    | some m => exact ⟨(hK id m (ha id m hl)).unique (.step hk hd hp hc),ha⟩
    | none =>
      have hl : l.length ≤ steps := by
        simp only [length_cons] at hs
        omega
      obtain ⟨h1,h2⟩ := ih hl ha
      simp only [object?_eq_some.mpr hk,Option.bind_some,hp,Option.any_some,hd,decide_true,if_true,h1]
      exact ⟨trivial,h2.insert (hdone id d _ (.step hk hd hp hc) hk hd)⟩

/-- The chain of an object holds what it extends, the nearest first. Asking for it keeps no chains of another kind. -/
theorem chain_kept (hf : t.Anchored) (ha : a.Kept K) (id : EntityId) :
    (a.chain t id).2.Kept K ∧ ((∀ x, x ∈ (a.chain t id).1 ↔ t.Extends id x) ∧ (a.chain t id).1.Pairwise t.Extends) ∧
      ∀ l, t.Ascent id l → (a.chain t id).1 = l := by
  by_cases hup : ∃ l, t.Ascent id l
  · obtain ⟨l,hl⟩ := hup
    obtain ⟨h1,h2⟩ := chainWithin_ascent hK hdone hl (Nat.le_succ_of_le hl.length_le_size) ha
    rw [chain,h1]
    exact ⟨h2,⟨fun _ => hl.mem_iff,hl.pairwise⟩,fun m hm => hl.unique hm⟩
  · have hlookup : a.chains.lookup id = none := by
      rw [Option.eq_none_iff_forall_ne_some]
      exact fun l hl => hup ⟨l,hK id l (ha id l hl)⟩
    have hstage : (t.object? id).any (·.stage = .done) = false := by
      cases ho : t.object? id with
      | none => rfl
      | some d =>
        have hk := object?_eq_some.mp ho
        refine decide_eq_false fun hs => ?_
        cases hp : d.parent with
        | none => exact hup ⟨_,.top hk hp (.inl hs)⟩
        | some above =>
          obtain ⟨l,hl⟩ := hf id d above hk hp
          exact hup ⟨_,.step hk hs hp hl⟩
    have hnot : ∀ {l m : List EntityId}, t.Ascent id l → m = l := fun hl => absurd ⟨_,hl⟩ hup
    simp only [chain,chainWithin,hlookup,hstage,Bool.false_eq_true,if_false]
    cases hp : (t.object? id).bind (·.parent) with
    | none =>
      refine ⟨ha,⟨fun x => mem_top fun above ⟨d,hk,habove⟩ => ?_,pairwise_singleton _ _⟩,fun _ => hnot⟩
      cases hp.symm.trans (Option.bind_eq_some_iff.mpr ⟨d,object?_eq_some.mpr hk,habove⟩)
    | some above =>
      obtain ⟨d,ho,hp⟩ := Option.bind_eq_some_iff.mp hp
      have hparent : t.Parent id above := ⟨d,object?_eq_some.mp ho,hp⟩
      obtain ⟨l,hl⟩ := hf id d above (object?_eq_some.mp ho) hp
      obtain ⟨h1,h2⟩ := chainWithin_ascent hK hdone hl hl.length_le_size ha
      rw [h1]
      exact ⟨h2,⟨fun _ => mem_step hparent hl.mem_iff,pairwise_step hparent (fun _ => hl.mem_iff) hl.pairwise⟩,
        fun _ => hnot⟩

end Kept

section

variable (hf : t.Anchored) (ha : a.Keeps t) (id : EntityId)

include hf ha

theorem keeps_chain : (a.chain t id).2.Keeps t := (chain_kept (fun _ _ h => h) (fun _ _ _ h _ _ => h) hf ha id).1

/-- Whatever chains are kept, the chain of a type holds what it extends, the nearest first. -/
theorem chain_climbs : (∀ x, x ∈ (a.chain t id).1 ↔ t.Extends id x) ∧ (a.chain t id).1.Pairwise t.Extends :=
  (chain_kept (fun _ _ h => h) (fun _ _ _ h _ _ => h) hf ha id).2.1

end

/-- A kept chain is the one that is worked out from the entities alone. -/
theorem Keeps.recomputed (ha : a.Keeps t) (hl : a.chains.lookup id = some l) : (({} : Ancestry).chain t id).1 = l := by
  have hc := ha id l hl
  exact (chainWithin_ascent (fun _ _ h => h) (fun _ _ _ h _ _ => h) hc (Nat.le_succ_of_le hc.length_le_size)
    (by rintro _ _ ⟨⟩)).1

end Ancestry

end FormCompiler
