import FormCompiler.Proofs.Resolution.Complete

/-! Types of branches. A resolved program has a tree of objects, and its conditionals and matches have the join of the
types of their branches, in whatever order these stand. -/

namespace FormCompiler

open EntityTable

/-- The parts of which a run takes one and whose value is that of the whole. -/
def ExprShape.branches : ExprShape → List ExprId
  | .cond _ yes (some no) => [yes,no]
  | .select m => m.arms.map (·.body) ++ m.default.toList
  | _ => []

namespace Program

variable {p q : Program} {τ : Ty}

/-- An object that is not finished after all was never started, so it is generic and has no parent. -/
theorem Scanned.surveyed (hp : p.Scanned) (h : resolveProgram p = .ok () q) :
    q.entities.Surveyed ∧ q.ancestry.Keeps q.entities := by
  have hO := hp.fresh.orderly
  obtain ⟨hr,_⟩ := hO.resolves h
  obtain ⟨-,hw⟩ := (hp.fresh.inv hp.hasBase).resolveProgram hp.fresh.idle (hp.fresh.arraysNamed hp.hasArrays) h
  refine ⟨?_,hw.inv.memo.keeps⟩
  rintro _ id d rfl hk
  by_cases hd : d.stage = .done
  · obtain ⟨l,hl⟩ := hw.inv.founded.chain hk hd
    exact ⟨l,hl.ascent⟩
  · have hgeneric : d.isGeneric = true := by
      by_contra hn
      exact hd ((hO.finished h id).object d hk (by simpa using hn))
    obtain ⟨-,hlike,hs⟩ := hr.unfinished id (by simp) (by rw [hk]; exact hd)
    rw [hk] at hlike hs
    obtain ⟨e,he, -⟩ := hlike.to_object
    rw [he] at hs
    have hpending : d.stage = .pending := by
      rw [show d.stage = e.stage from hs.symm] at hd ⊢
      exact (hp.fresh.object he).stage.resolve_right fun hdone => hd hdone.1
    exact ⟨_,.top hk ((hw.inv.objectOk hk).pending hpending) (.inr hgeneric)⟩

/-- The branches of a node have the type of the node as their join. -/
theorem NodeTyped.merges {shape : ExprShape} (h : p.NodeTyped shape τ) (hb : shape.branches ≠ []) :
    p.Merges [] shape.branches τ := by
  cases h with
  | cond _ _ _ hm => exact hm
  | select hm => exact hm.merges
  | _ => simp [ExprShape.branches] at hb

/-- Being assignable is an order of types with `never` at its bottom, and joining gives the least type above two, if any
type is above both. So it is commutative, idempotent and associative, and the branches of a resolved program, joined in
any order, give the type of their node. Objects that are finished and lead up to the base type are a case of the first
part, and those of a resolved program are another. -/
theorem branches_joined : (∀ p : Program, p.entities.Surveyed → p.ancestry.Keeps p.entities →
      (∀ σ τ, ∃ b a, Check.isAssignable σ τ p = .ok b { p with ancestry := a } ∧ a.Keeps p.entities ∧
        (b = true ↔ p.entities.Assignable σ τ)) ∧
      (∀ τ, p.entities.Assignable τ τ) ∧ (∀ τ, p.entities.Assignable .never τ) ∧
      (∀ σ τ, p.entities.Assignable σ τ → p.entities.Assignable τ σ → σ = τ) ∧
      (∀ ρ σ τ, p.entities.Assignable ρ σ → p.entities.Assignable σ τ → p.entities.Assignable ρ τ) ∧
      (∀ σ τ, ∃ a, Check.join? σ τ p = .ok (p.entities.join? σ τ) { p with ancestry := a } ∧ a.Keeps p.entities) ∧
      (∀ σ τ c, p.entities.join? σ τ = some c ↔ p.entities.IsJoin [σ,τ] c) ∧
      (∀ σ τ, p.entities.join? σ τ = none ↔ ¬ ∃ c, p.entities.Assignable σ c ∧ p.entities.Assignable τ c) ∧
      (∀ σ τ, p.entities.join? σ τ = p.entities.join? τ σ) ∧ (∀ τ, p.entities.join? τ τ = some τ) ∧
      ∀ ρ σ τ, (p.entities.join? ρ σ).bind (p.entities.join? · τ) = (p.entities.join? σ τ).bind (p.entities.join? ρ ·)) ∧
    ∀ p q : Program, p.Scanned → resolveProgram p = .ok () q →
      q.entities.Surveyed ∧ q.ancestry.Keeps q.entities ∧
      ∀ id τ, q.Typed id τ → (q.exprs.get id).shape.branches ≠ [] →
        ∃ types, List.Forall₂ q.Typed (q.exprs.get id).shape.branches types ∧ q.entities.IsJoin types τ ∧
          ∀ first rest, types.Perm (first :: rest) → rest.foldlM q.entities.join? first = some τ := by
  constructor
  · intro p ht ha
    have comm : ∀ σ τ, p.entities.join? σ τ = p.entities.join? τ σ := fun σ τ => by
      simpa using foldlM_join?_perm ht (.swap τ σ [])
    refine ⟨isAssignable_run ht ha,.refl,.never,fun _ _ => Assignable.antisymm ht,fun _ _ _ => .trans,join?_run ht ha,
      fun _ _ _ => join?_eq_some_iff ht,fun _ _ => join?_eq_none_iff ht,comm,fun τ => ?_,fun ρ σ τ => ?_⟩
    · exact (join?_eq_some_iff ht).mpr ((IsJoin.singleton τ).congr (by simp))
    · have hperm : ([ρ] ++ [σ,τ]).Perm ([σ,τ] ++ [ρ]) := List.perm_append_comm
      have hfold : [σ,τ].foldlM p.entities.join? ρ = [τ,ρ].foldlM p.entities.join? σ := foldlM_join?_perm ht hperm
      simp only [List.foldlM_cons,List.foldlM_nil,bind_pure] at hfold
      exact hfold.trans (congrArg _ (funext fun c => comm c ρ))
  · intro p q hp h
    obtain ⟨ht,ha⟩ := hp.surveyed h
    obtain ⟨-,hw⟩ := (hp.fresh.inv hp.hasBase).resolveProgram hp.fresh.idle (hp.fresh.arraysNamed hp.hasArrays) h
    refine ⟨ht,ha,fun id τ hτ hb => ?_⟩
    obtain ⟨types,htypes, -,hjoin⟩ := (hw.inv.nodes id τ hτ).1.merges hb
    refine ⟨types,htypes,hjoin,fun first rest hperm => ?_⟩
    rcases foldlM_join? ht rest first with ⟨c,hc,hjoin'⟩ | ⟨_,hnone⟩
    · rw [hc,(hjoin.congr fun σ => hperm.mem_iff.symm).unique ht hjoin']
    · exact absurd ⟨τ,fun σ hσ => hjoin.above σ (hperm.mem_iff.mpr hσ)⟩ hnone

private def eitherSource : String :=
  "(obj A (: x i32)) (obj B (extends A)) (obj C (extends A))" ++
    "(fn f (parameters (: t bool) (: b B) (: c C)) (return_type A) (if t b c))"

theorem branches_joined_sample : ∃ p q : Program, p.Scanned ∧ resolveProgram p = .ok () q ∧
    q.Typed ⟨3⟩ (.object ⟨61⟩) ∧ (q.exprs.get ⟨3⟩).shape.branches = [⟨1⟩,⟨2⟩] ∧
    q.entities.join? (.object ⟨63⟩) (.object ⟨62⟩) = some (.object ⟨61⟩) ∧
    q.entities.IsJoin [.object ⟨62⟩,.object ⟨63⟩] (.object ⟨61⟩) := by
  have hcheck : okAnd (fun _ p => okAnd (fun _ q => (q.exprs.get ⟨3⟩).type = some (.object ⟨61⟩) &&
      (q.exprs.get ⟨1⟩).type = some (.object ⟨62⟩) && (q.exprs.get ⟨2⟩).type = some (.object ⟨63⟩) &&
      (q.exprs.get ⟨3⟩).shape.branches = [⟨1⟩,⟨2⟩]) (resolveProgram p))
      (scan [] "main.vast" eitherSource initial) = true := by decide +kernel
  obtain ⟨scope,p,hp,h⟩ := okAnd_iff.mp hcheck
  obtain ⟨_,q,hq,h⟩ := okAnd_iff.mp h
  simp only [Bool.and_eq_true,decide_eq_true_eq] at h
  obtain ⟨⟨⟨hcond,hyes⟩,hno⟩,hb⟩ := h
  have hscanned := scanned_of_scan hp
  obtain ⟨ht,ha,hnodes⟩ := branches_joined.2 p q hscanned hq
  obtain ⟨types,htypes,hjoin,hany⟩ := hnodes ⟨3⟩ (.object ⟨61⟩) hcond (by simp [hb])
  rw [hb] at htypes
  cases htypes with
  | cons h1 htypes =>
  cases htypes with
  | cons h2 htypes =>
  cases htypes
  cases hyes.symm.trans h1
  cases hno.symm.trans h2
  obtain ⟨-, -, -, -, -, -, -, -,hcomm, -⟩ := branches_joined.1 q ht ha
  refine ⟨p,q,hscanned,hq,hcond,hb,(hcomm _ _).trans ?_,hjoin⟩
  simpa using hany _ _ (.refl _)

end Program

end FormCompiler
