import FormCompiler.Proofs.Resolution.Ancestors

/-! Types of branches. What objects extend forms a tree, so the nearest object above two is below every other one above
both. Joining types is therefore commutative, idempotent and associative, and the type of a conditional or a match does
not depend on the order of its arms. -/

namespace FormCompiler

open Check Ancestry List

variable {others types : List Ty} {a : Ancestry} {σ τ c : Ty}

/-! ### The order of types -/

namespace EntityTable

/-- It is settled what a type is below: from an object, finished parents lead up to one without a parent. -/
def Settled (t : EntityTable) (τ : Ty) : Prop := ∀ x d, τ = .object x → t.kind x = .object d → ∃ l, t.Ascent x l

/-- Every object is finished or generic, and parents lead from it up to one without a parent. -/
def Surveyed (t : EntityTable) : Prop := ∀ τ, t.Settled τ

/-- Values of the first type can stand where the second one is expected. There are no values of type `never`. -/
def Assignable (t : EntityTable) (σ τ : Ty) : Prop :=
  σ = τ ∨ σ = .never ∨ ∃ x y, σ = .object x ∧ τ = .object y ∧ t.Extends x y

/-- The least type that values of all these types can stand for. -/
structure IsJoin (t : EntityTable) (types : List Ty) (c : Ty) : Prop where
  above : ∀ σ ∈ types, t.Assignable σ c
  least : ∀ d, (∀ σ ∈ types, t.Assignable σ d) → t.Assignable c d

/-- The least type above two types, worked out from the entities alone. -/
def join? (t : EntityTable) (σ τ : Ty) : Option Ty := (({} : Ancestry).join? t σ τ).1

variable {t u : EntityTable} {id x y : EntityId} {l : List EntityId} {ρ : Ty}

theorem Surveyed.anchored (ht : t.Surveyed) : t.Anchored := by
  intro id d above hk hp
  obtain ⟨l,hl⟩ := ht (.object id) id d rfl hk
  cases hl with
  | top hk' hp' _ =>
    cases hk.symm.trans hk'
    cases hp.symm.trans hp'
  | step hk' _ hp' hrest =>
    cases hk.symm.trans hk'
    cases hp.symm.trans hp'
    exact ⟨_,hrest⟩

theorem Extends.antisymm (ht : t.Surveyed) (h : t.Extends x y) (k : t.Extends y x) : x = y := by
  rcases Relation.ReflTransGen.cases_head h with he | ⟨above,⟨d,hk,hp⟩,hrest⟩
  · exact he
  · obtain ⟨l,hl⟩ := ht.anchored x d above hk hp
    -- otherwise the object would be on the way up from its parent
    have hx : x ∈ l := hl.mem_iff.mpr (Relation.ReflTransGen.trans hrest k)
    obtain ⟨m,hm⟩ := ht (.object x) x d rfl hk
    cases hm with
    | top hk' hp' _ =>
      cases hk.symm.trans hk'
      cases hp.symm.trans hp'
    | step hk' hd' hp' hrest' =>
      cases hk.symm.trans hk'
      cases hp.symm.trans hp'
      cases hl.unique hrest'
      exact absurd hx (nodup_cons.mp (Ascent.step hk' hd' hp' hrest').nodup).1

namespace Assignable

theorem refl (σ : Ty) : t.Assignable σ σ := .inl rfl

theorem never (τ : Ty) : t.Assignable .never τ := .inr (.inl rfl)

theorem trans (h : t.Assignable ρ σ) (k : t.Assignable σ τ) : t.Assignable ρ τ := by
  rcases h with rfl | rfl | ⟨x,y,rfl,rfl,h⟩
  · exact k
  · exact .never τ
  · rcases k with rfl | hy | ⟨y',z,hy,rfl,k⟩
    · exact .inr (.inr ⟨x,y,rfl,rfl,h⟩)
    · cases hy
    · cases hy
      exact .inr (.inr ⟨x,z,rfl,rfl,Relation.ReflTransGen.trans h k⟩)

theorem antisymm (ht : t.Surveyed) (h : t.Assignable σ τ) (k : t.Assignable τ σ) : σ = τ := by
  rcases h with rfl | rfl | ⟨x,y,rfl,rfl,h⟩
  · rfl
  · rcases k with rfl | rfl | ⟨_,_,_,hy,_⟩
    · rfl
    · rfl
    · cases hy
  · rcases k with hy | hy | ⟨_,_,hy,hx,k⟩
    · exact hy.symm
    · cases hy
    · cases hy
      cases hx
      rw [Extends.antisymm ht h k]

/-- What is above an object is an object that it extends. -/
theorem object_iff : t.Assignable (.object x) τ ↔ ∃ y, τ = .object y ∧ t.Extends x y := by
  constructor
  · rintro (rfl | h | ⟨_,y,hx,rfl,h⟩)
    · exact ⟨x,rfl,.refl⟩
    · cases h
    · cases hx
      exact ⟨y,rfl,h⟩
  · rintro ⟨y,rfl,h⟩
    exact .inr (.inr ⟨x,y,rfl,rfl,h⟩)

end Assignable

theorem IsJoin.unique {c' : Ty} (ht : t.Surveyed) (h : t.IsJoin types c) (h' : t.IsJoin types c') : c = c' :=
  Assignable.antisymm ht (h.least c' h'.above) (h'.least c h.above)

theorem IsJoin.congr (h : t.IsJoin types c) (he : ∀ σ, σ ∈ others ↔ σ ∈ types) : t.IsJoin others c :=
  ⟨fun σ hσ => h.above σ ((he σ).mp hσ),fun d hd => h.least d fun σ hσ => hd σ ((he σ).mpr hσ)⟩

/-- Types may be joined step by step. -/
theorem IsJoin.append (h : t.IsJoin types σ) (h' : t.IsJoin (σ :: others) c) : t.IsJoin (types ++ others) c where
  above ρ hρ := by
    rcases mem_append.mp hρ with hρ | hρ
    · exact (h.above ρ hρ).trans (h'.above σ mem_cons_self)
    · exact h'.above ρ (mem_cons_of_mem _ hρ)
  least d hd := by
    refine h'.least d fun ρ hρ => ?_
    rcases mem_cons.mp hρ with rfl | hρ
    · exact h.least d fun κ hκ => hd κ (mem_append_left _ hκ)
    · exact hd ρ (mem_append_right _ hρ)

theorem IsJoin.singleton (σ : Ty) : t.IsJoin [σ] σ :=
  ⟨by simp [Assignable.refl],fun d hd => hd σ mem_cons_self⟩

end EntityTable

/-! ### What is worked out -/

open EntityTable

variable {t : EntityTable}

namespace Ancestry

/-- The nearest object above both is below all others, and without one there is none above both. -/
theorem common?_spec (ht : t.Anchored) (ha : a.Keeps t) (x y : EntityId) : (a.common? t x y).2.Keeps t ∧
      ((∃ c, (a.common? t x y).1 = some c ∧ t.Extends x c ∧ t.Extends y c ∧
          ∀ d, t.Extends x d → t.Extends y d → t.Extends c d) ∨
        (a.common? t x y).1 = none ∧ ¬ ∃ c, t.Extends x c ∧ t.Extends y c) := by
  have hy := (chain_climbs ht ha y).1
  have ha' := keeps_chain ht ha y
  obtain ⟨hx,hpair⟩ := chain_climbs ht ha' x
  refine ⟨keeps_chain ht ha' x,?_⟩
  simp only [common?]
  cases hc : ((a.chain t y).2.chain t x).1.find? (a.chain t y).1.contains with
  | some c =>
    obtain ⟨hyc,before,after,hl,hbefore⟩ := find?_eq_some_iff_append.mp hc
    simp only [contains_eq_mem,decide_eq_true_eq] at hyc
    refine .inl ⟨c,rfl,(hx c).mp (by simp [hl]),(hy c).mp hyc,fun d hxd hyd => ?_⟩
    have hd : d ∈ before ++ c :: after := hl ▸ (hx d).mpr hxd
    rcases mem_append.mp hd with hd | hd
    · have := hbefore d hd
      simp [(hy d).mpr hyd] at this
    · rw [hl] at hpair
      rcases mem_cons.mp hd with rfl | hd
      · exact .refl
      · exact (pairwise_cons.mp (pairwise_append.mp hpair).2.1).1 d hd
  | none =>
    refine .inr ⟨rfl,?_⟩
    rintro ⟨c,hxc,hyc⟩
    have := find?_eq_none.mp hc c ((hx c).mpr hxc)
    simp [(hy c).mpr hyc] at this

theorem join?_spec (ht : t.Anchored) (ha : a.Keeps t) (σ τ : Ty) :
    (a.join? t σ τ).2.Keeps t ∧ ((∃ c, (a.join? t σ τ).1 = some c ∧ t.IsJoin [σ,τ] c) ∨
      (a.join? t σ τ).1 = none ∧ ¬ ∃ c, t.Assignable σ c ∧ t.Assignable τ c) := by
  unfold join?
  split
  · rename_i x y
    split
    · rename_i he
      subst he
      exact ⟨ha,.inl ⟨_,rfl,by simp [Assignable.refl],fun d hd => hd _ (by simp)⟩⟩
    · obtain ⟨hkeeps,hcommon⟩ := common?_spec ht ha x y
      refine ⟨hkeeps,hcommon.imp ?_ ?_⟩
      · rintro ⟨c,hc,hx,hy,hleast⟩
        refine ⟨.object c,by simp [hc],?_,fun d hd => ?_⟩
        · simp [Assignable.object_iff,hx,hy]
        · obtain ⟨e,rfl,hxe⟩ := Assignable.object_iff.mp (hd (.object x) (by simp))
          obtain ⟨_,he,hye⟩ := Assignable.object_iff.mp (hd (.object y) (by simp))
          cases he
          exact Assignable.object_iff.mpr ⟨e,rfl,hleast e hxe hye⟩
      · rintro ⟨hc,hnone⟩
        refine ⟨by simp [hc],?_⟩
        rintro ⟨c,hxc,hyc⟩
        obtain ⟨e,rfl,hxe⟩ := Assignable.object_iff.mp hxc
        obtain ⟨_,he,hye⟩ := Assignable.object_iff.mp hyc
        cases he
        exact hnone ⟨e,hxe,hye⟩
  · rename_i hobjects
    refine ⟨ha,?_⟩
    unfold Ty.join?
    split
    · subst σ
      exact .inl ⟨τ,rfl,by simp [Assignable.refl,Assignable.never],fun d hd => hd τ (by simp)⟩
    · rename_i hσ
      split
      · subst τ
        exact .inl ⟨σ,rfl,by simp [Assignable.refl,Assignable.never],fun d hd => hd σ (by simp)⟩
      · rename_i hτ
        split
        · subst τ
          exact .inl ⟨σ,rfl,by simp [Assignable.refl],fun d hd => hd σ (by simp)⟩
        · rename_i hne
          refine .inr ⟨by split <;> simp,?_⟩
          rintro ⟨c,rfl | rfl | ⟨x,z,rfl,rfl,_⟩,hc⟩
          · rcases hc with rfl | rfl | ⟨x,y,rfl,rfl,_⟩
            · exact hne rfl
            · exact hτ rfl
            · exact hobjects _ _ rfl rfl
          · exact hσ rfl
          · rcases hc with rfl | rfl | ⟨y,_,rfl,_,_⟩
            · exact hobjects _ _ rfl rfl
            · exact hτ rfl
            · exact hobjects _ _ rfl rfl

end Ancestry

namespace EntityTable

theorem join?_eq_some_iff (ht : t.Surveyed) : t.join? σ τ = some c ↔ t.IsJoin [σ,τ] c := by
  rcases (join?_spec ht.anchored (a := {}) (by rintro _ _ ⟨⟩) σ τ).2 with ⟨c',hc,hjoin⟩ | ⟨hc,hnone⟩
  · rw [join?,hc,Option.some.injEq]
    exact ⟨fun he => he ▸ hjoin,fun h => hjoin.unique ht h⟩
  · rw [join?,hc]
    refine ⟨by simp,fun h => absurd ⟨c,h.above σ (by simp),h.above τ (by simp)⟩ hnone⟩

theorem join?_eq_none_iff (ht : t.Surveyed) : t.join? σ τ = none ↔ ¬ ∃ c, t.Assignable σ c ∧ t.Assignable τ c := by
  rcases (join?_spec ht.anchored (a := {}) (by rintro _ _ ⟨⟩) σ τ).2 with ⟨c,hc,hjoin⟩ | ⟨hc,hnone⟩
  · rw [join?,hc]
    exact ⟨by simp,fun h => absurd ⟨c,hjoin.above σ (by simp),hjoin.above τ (by simp)⟩ h⟩
  · rw [join?,hc]
    exact ⟨fun _ => hnone,fun _ => rfl⟩

/-- Kept chains do not matter for the join. -/
theorem join?_of_keeps (ht : t.Surveyed) (ha : a.Keeps t) (σ τ : Ty) : (a.join? t σ τ).1 = t.join? σ τ := by
  rcases (join?_spec ht.anchored ha σ τ).2 with ⟨c,hc,hjoin⟩ | ⟨hc,hnone⟩
  · rw [hc,(join?_eq_some_iff ht).mpr hjoin]
  · rw [hc,(join?_eq_none_iff ht).mpr hnone]

/-- Types joined one after the other: the least type above all of them, if there is one. -/
theorem foldlM_join? (ht : t.Surveyed) (types : List Ty) (first : Ty) :
    (∃ c, types.foldlM t.join? first = some c ∧ t.IsJoin (first :: types) c) ∨
      types.foldlM t.join? first = none ∧ ¬ ∃ c, ∀ σ ∈ first :: types, t.Assignable σ c := by
  induction types generalizing first with
  | nil => exact .inl ⟨first,rfl,.singleton first⟩
  | cons τ types ih =>
    rw [foldlM_cons]
    cases hj : t.join? first τ with
    | none =>
      refine .inr ⟨rfl,?_⟩
      rintro ⟨c,hc⟩
      exact (join?_eq_none_iff ht).mp hj ⟨c,hc first (by simp),hc τ (by simp)⟩
    | some ρ =>
      have hρ := (join?_eq_some_iff ht).mp hj
      rcases ih ρ with ⟨c,hc,hjoin⟩ | ⟨hc,hnone⟩
      · exact .inl ⟨c,hc,hρ.append hjoin⟩
      · refine .inr ⟨hc,?_⟩
        rintro ⟨c,hall⟩
        refine hnone ⟨c,fun σ hσ => ?_⟩
        rcases mem_cons.mp hσ with rfl | hσ
        · exact hρ.least c fun σ hσ => hall σ (mem_append_left types hσ)
        · exact hall σ (mem_append_right [first,τ] hσ)

theorem foldlM_join?_perm (ht : t.Surveyed) {first other : Ty}
    (h : (first :: types).Perm (other :: others)) : types.foldlM t.join? first = others.foldlM t.join? other := by
  rcases foldlM_join? ht types first with ⟨c,hc,hjoin⟩ | ⟨hc,hnone⟩
  · rcases foldlM_join? ht others other with ⟨c',hc',hjoin'⟩ | ⟨_,hnone'⟩
    · rw [hc,hc',hjoin.unique ht (hjoin'.congr fun _ => h.mem_iff)]
    · exact absurd ⟨c,fun σ hσ => hjoin.above σ (h.mem_iff.mpr hσ)⟩ hnone'
  · rcases foldlM_join? ht others other with ⟨c',_,hjoin'⟩ | ⟨hc',_⟩
    · exact absurd ⟨c',fun σ hσ => hjoin'.above σ (h.mem_iff.mp hσ)⟩ hnone
    · rw [hc,hc']

end EntityTable

namespace Program

variable {p : Program}

theorem isAssignable_run (ht : p.entities.Surveyed) (ha : p.ancestry.Keeps p.entities) (σ τ : Ty) :
    ∃ b a, isAssignable σ τ p = .ok b { p with ancestry := a } ∧ a.Keeps p.entities ∧
      (b = true ↔ p.entities.Assignable σ τ) := by
  unfold isAssignable
  by_cases hc : σ = τ ∨ σ = .never
  · rw [if_pos (by simpa using hc)]
    exact ⟨true,p.ancestry,rfl,ha,by rcases hc with rfl | rfl <;> simp [Assignable.refl,Assignable.never]⟩
  · rw [if_neg (by simpa using hc)]
    rw [not_or] at hc
    split
    · rename_i x y
      refine ⟨((p.ancestry.chain p.entities x).1.idxOf? y).isSome,(p.ancestry.chain p.entities x).2,rfl,
        keeps_chain ht.anchored ha x,?_⟩
      rw [isSome_idxOf?,(chain_climbs ht.anchored ha x).1 y,Assignable.object_iff]
      simp
    · rename_i hobjects
      refine ⟨false,p.ancestry,rfl,ha,by simp,?_⟩
      rintro (h | h | ⟨x,y,rfl,rfl,_⟩)
      · exact absurd h hc.1
      · exact absurd h hc.2
      · exact absurd rfl (hobjects _ _ rfl)

theorem join?_run (ht : p.entities.Surveyed) (ha : p.ancestry.Keeps p.entities) (σ τ : Ty) :
    ∃ a, Check.join? σ τ p = .ok (p.entities.join? σ τ) { p with ancestry := a } ∧ a.Keeps p.entities := by
  refine ⟨_,?_,(join?_spec ht.anchored ha σ τ).1⟩
  rw [← join?_of_keeps ht ha]
  rfl

end Program

end FormCompiler
