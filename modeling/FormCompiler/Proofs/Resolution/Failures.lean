import FormCompiler.Proofs.Resolution.Instances

/-! What a refused instantiation leaves behind. The instance of an object is kept once it has its layout, so a refusal
keeps nothing. The instance of a function is kept between its signature and its body, so that the body may call it, and
a body that is refused leaves it kept, in progress for ever. -/

namespace FormCompiler

open Check EntityTable Solver Program Inspect

variable {id g : EntityId} {args : List Ty} {p q : Program}

namespace Program

/-- The function has its signature, and its body is in progress. -/
def InBody (p : Program) (id : EntityId) : Prop :=
  ∃ d, p.entities.kind id = .function d ∧ d.signature = .done ∧ d.bodyStage = .inProgress

/-- Nobody else finishes a body that was begun. -/
theorem InBody.leaves (h : p.InBody id) (hl : p.Leaves none q) : q.InBody id := by
  obtain ⟨d,hk,hs,hb⟩ := h
  obtain ⟨e,he,hf⟩ := hl.advances.function_fixed (by simp) hk
  exact ⟨e,he,(hf.signature hs).1,(hf.body (by simp [hb])).1.trans hb⟩

/-- What a refusal leaves of an instance: it was not begun, or it is not kept and has no signature, or it is kept while
its body is in progress. -/
inductive Refusal (p : Program) (g : EntityId) (args : List Ty) (q : Program) : Prop
  | unbegun : q.entities = p.entities → Refusal p g args q
  | unkept : args ∉ (p.entities.kind g).keys → args ∉ (q.entities.kind g).keys →
      (∀ d, q.entities.kind ⟨p.entities.size⟩ = .function d → d.signature ≠ .done) → Refusal p g args q
  | abandoned {d : FunctionDef} : p.entities.kind g = .function d → d.typeParams.length = args.length →
      args ∉ (p.entities.kind g).keys →
      (args, (⟨p.entities.size⟩ : EntityId)) ∈ (q.entities.kind g).instances → q.InBody ⟨p.entities.size⟩ →
      Refusal p g args q

/-- What is kept after a refusal is what was kept before, and the new instance if it has a signature. -/
theorem Refusal.mem_keys_iff (h : p.Refusal g args q) : args ∈ (q.entities.kind g).keys ↔
    args ∈ (p.entities.kind g).keys ∨ (∃ c, p.entities.kind g = .function c) ∧
      ∃ d, q.entities.kind ⟨p.entities.size⟩ = .function d ∧ d.signature = .done := by
  cases h with
  | unbegun he =>
    refine ⟨fun hm => .inl (he ▸ hm),fun hm => hm.elim (fun hm => he.symm ▸ hm) ?_⟩
    rintro ⟨_,d,hd,_⟩
    rw [he] at hd
    have hlt : (⟨p.entities.size⟩ : EntityId).index < p.entities.size :=
      lt_size_of_kind fun hn => by cases hd.symm.trans hn
    exact absurd hlt (Nat.lt_irrefl _)
  | unkept hp hq hs =>
    refine ⟨fun hm => absurd hm hq,fun hm => hm.elim (fun hm => absurd hm hp) ?_⟩
    rintro ⟨_,d,hd,hdone⟩
    exact absurd hdone (hs d hd)
  | abandoned hk _ _ hm hb =>
    obtain ⟨d,hd,hs,_⟩ := hb
    exact ⟨fun _ => .inr ⟨⟨_,hk⟩,d,hd,hs⟩,fun _ => List.mem_map.mpr ⟨_,hm,rfl⟩⟩

end Program

namespace Solver.Follows

variable {S : Solver} (h : S.Follows (fun _ => False) S) {d : FunctionDef}
include h

/-- A signature that is refused leaves the function as it was. -/
theorem resolveSignature_refused (id : EntityId) (hO : p.Orderly) : Ends (S.resolveSignature id) p (fun _ _ => True)
    fun _ q => ∀ d, q.entities.kind id = .function d ↔ p.entities.kind id = .function d := by
  have hT := h.respectsTypes none
  -- Only types are asked for on the way, which changes no function.
  have quiet {α : Type} {x : Check α} {R : α → Program → Prop} (hx : Runs (fun _ => False) none x x R) {q : Program}
      (hq : q.Orderly ∧ p.Still q) : Ends x q (fun _ r => r.Orderly ∧ p.Still r)
        fun _ r => ∀ d, r.entities.kind id = .function d ↔ p.entities.kind id = .function d := by
    refine (hx q (Prepared.of_orderly hq.1).quiet).ends.mono ?_ ?_
    · exact fun _ r _ k => ⟨k.2.1.orderly,k.1.still.exprs.trans hq.2.exprs,k.1.still.scopes.trans hq.2.scopes,
        fun i d => (k.1.still.functions i d).trans (hq.2.functions i d)⟩
    · exact fun _ r k d => (k.1.still.functions id d).trans (hq.2.functions id d)
  refine .run (a := p.entities.get id) rfl ?_
  split
  · exact fun _ => Iff.rfl
  · rename_i d _
    split
    · trivial
    · have hd := d.avoids_none
      refine .bind (quiet (hT.paramTypes d.scope d.params hd.params) ⟨hO,rfl,rfl,fun _ _ => Iff.rfl⟩)
        fun types q1 _ h1 => .bind (quiet (hT.declaredReturn hd) h1) fun _ q2 _ h2 => ?_
      split
      · exact .bind (quiet (hT.paramVars d.params fun τ _ => τ.avoids_none) h2) fun _ _ _ _ => trivial
      · trivial

/-- A body that is refused was begun. -/
theorem resolveBody_refused (hO : p.Orderly) (hk : p.entities.kind id = .function d) (hs : d.signature = .done) :
    Ends (S.resolveBody id) p (fun _ _ => True) fun _ q => q.InBody id := by
  have hget : (p.entities.get id).function? = some d := function?_eq_some.mpr hk
  have hsigned : S.resolveSignature id p = .ok () p := by
    refine Check.bind_ok.mpr ⟨p.entities.get id,p,rfl,?_⟩
    simp only [hget,hs]
    rfl
  refine .run hsigned (.run (a := p.entities.get id) rfl ?_)
  rw [hget]
  dsimp only
  split
  swap
  · trivial
  split
  · rename_i first root _
    have h1 := Reaches.startBody hO hk hs d.scope (some ⟨p.scopes.size⟩)
    have hk1 := kind_modifyFunction_self hk
      fun d => { d with bodyStage := .inProgress, bodyScope := some ⟨p.scopes.size⟩ }
    have begun {α : Type} {x : Check α} {R : α → Program → Prop} (hx : Runs (fun _ => False) (some 0) x x R)
        {q : Program} (hq : q.Orderly ∧ q.InBody id) :
        Ends x q (fun _ r => r.Orderly ∧ r.InBody id) fun _ r => r.InBody id :=
      (hx q (.of_orderly hq.1)).ends.mono (fun _ _ _ k => ⟨k.2.1.orderly,hq.2.leaves k.2.1.toLeaves⟩)
        fun _ _ k => hq.2.leaves k.2
    have hT := h.respectsTypes (some 0)
    refine .run rfl (.run rfl ?_)
    refine .bind (begun (hT.registerAll (register (Nat.zero_le _)) d.paramVars) ⟨h1.orderly,_,hk1,hs,rfl⟩)
      fun _ _ _ h2 => .bind (begun (h.expr root (Nat.zero_le _)) h2) fun τ _ _ h3 => ?_
    exact .bind (begun (hT.bodyReturn id _ root τ.avoids_none d.avoids_none.returnType) h3) fun _ _ _ _ => trivial
  · trivial

theorem instantiateObject_refused (g : EntityId) (args : List Ty) (location : Location) (hO : p.Orderly) :
    Ends (S.instantiateObject g args location) p
      (fun id _ => args ∈ (p.entities.kind g).keys ∨ id = ⟨p.entities.size⟩) fun _ q => p.Refusal g args q := by
  refine .run (a := p.entities.get g) rfl ?_
  split
  · exact .unbegun rfl
  · rename_i d hd
    have hk : p.entities.kind g = .object d := object?_eq_some.mp hd
    refine .expectArity (fun _ => ?_) fun _ _ => .unbegun rfl
    split
    · rename_i hsome
      exact .inl (hk ▸ List.mem_map.mpr ⟨_,mem_of_lookup hsome,rfl⟩)
    · rename_i hnone
      have hn : args ∉ (p.entities.kind g).keys := by
        rw [hk]
        exact not_mem_keys_of_cached? hnone
      refine .enterInstance (fun hfree _ => ?_) fun _ _ => .unbegun rfl
      let pA := p.entering g args
      have hA : pA.Leaves none { pA with entities := (p.entities.alloc (p.entities.get g).name
          (p.entities.get g).location (.object (objectInstance g d args))).2 } :=
        .alloc (p := pA) (hO.of_entities rfl) _ _ (.of_new rfl (by simp) (by simp)) rfl
      refine .run rfl (.bind (R := fun _ _ => True) (.afterwards (.afterwards ?_)) fun _ _ _ _ => .inr rfl)
      refine (h.object ⟨p.entities.size⟩ _ (Prepared.of_orderly hA.orderly).quiet).ends.mono
        (fun _ _ _ _ => trivial) fun _ r hr => ?_
      have hl := hA.trans hr.2
      obtain ⟨e,he,_⟩ := hr.2.advances.object (kind_alloc_self (t := p.entities) ..)
      refine .unkept hn ?_ fun _ hf => absurd (he.symm.trans hf) (by simp)
      exact hl.advances.locked g args (lt_size_of_kind (by simp [pA,hk])) List.mem_cons_self hn

theorem instantiateFunction_refused (g : EntityId) (args : List Ty) (location : Location) (hO : p.Orderly) :
    Ends (S.instantiateFunction g args location) p
      (fun id _ => args ∈ (p.entities.kind g).keys ∨ id = ⟨p.entities.size⟩) fun _ q => p.Refusal g args q := by
  refine .run (a := p.entities.get g) rfl ?_
  split
  · exact .unbegun rfl
  · rename_i d hd
    have hk : p.entities.kind g = .function d := function?_eq_some.mp hd
    refine .expectArity (fun harity => ?_) fun _ _ => .unbegun rfl
    split
    · rename_i hsome
      exact .inl (hk ▸ List.mem_map.mpr ⟨_,mem_of_lookup hsome,rfl⟩)
    · rename_i hnone
      have hn : args ∉ (p.entities.kind g).keys := by
        rw [hk]
        exact not_mem_keys_of_cached? hnone
      refine .enterInstance (fun hfree _ => ?_) fun _ _ => .unbegun rfl
      let pA := p.entering g args
      have hpA : pA.Prepared (fun _ => False) (some 0) := .of_orderly (hO.of_entities rfl)
      obtain ⟨body,a,hrun,hclone, -⟩ := cloneBody_runs (avoids_zip d.typeParams fun τ _ => τ.avoids_none) d.body hpA
      have hA : pA.Leaves none { pA with
          exprs := a
          entities := (p.entities.alloc (p.entities.get g).name (p.entities.get g).location
            (.function (functionInstance g d args body))).2 } :=
        hclone.toLeaves.trans (.alloc hclone.orderly _ _ (.of_new rfl (by simp [functionInstance]) (by simp)) rfl)
      have hkA := kind_alloc_self (t := p.entities) (p.entities.get g).name
        (p.entities.get g).location (.function (functionInstance g d args body))
      have hg : g.index < p.entities.size := lt_size_of_kind (by simp [hk])
      refine .run hrun (.run rfl (.bind (R := fun _ _ => True) (.afterwards ?_) fun _ _ _ _ => .inr rfl))
      refine .bind (R := fun _ q => Leaves { p with instanceDepth := p.instanceDepth + 1 } none q ∧
        args ∉ (q.entities.kind g).keys ∧ (q.entities.kind ⟨p.entities.size⟩).IsInstance g args ∧
        ∃ e, q.entities.kind ⟨p.entities.size⟩ = .function e ∧ e.signature = .done) (.afterwards ?_) ?_
      · refine ((h.resolveSignature _ _ (.of_orderly hA.orderly)).ends.and
          (h.resolveSignature_refused ⟨p.entities.size⟩ hA.orderly)).mono ?_ ?_
        · rintro _ r - ⟨⟨_,hr,e,he,hs⟩,_⟩
          have hl := hA.trans hr.toLeaves
          refine ⟨hl.leaveKey,?_,hr.advances.isInstance (by rw [hkA]; exact ⟨rfl,rfl⟩),e,he,hs⟩
          exact hl.advances.locked g args hg List.mem_cons_self hn
        · rintro _ r ⟨⟨_,hr⟩,hsame⟩
          refine .unkept hn ((hA.trans hr).advances.locked g args hg List.mem_cons_self hn) fun e he => ?_
          cases hkA.symm.trans ((hsame e).mp he)
          simp [functionInstance]
      · rintro _ q - ⟨hq,hn',hi,e,he,hs⟩
        obtain ⟨d',hd',_⟩ := hq.advances.function (p := { p with instanceDepth := p.instanceDepth + 1 }) hk
        have hfree' : (g, args) ∉ q.instantiating := hq.advances.instantiating ▸ hfree
        have hkeep := Reaches.keepFunction hq.orderly hfree' hn' hi hd'
        obtain ⟨e',he',hfixed⟩ := hkeep.advances.function_fixed (by simp) he
        refine .run rfl (((h.resolveBody ⟨p.entities.size⟩ _ (.of_orderly hkeep.orderly)).ends.and
          (h.resolveBody_refused hkeep.orderly he' (hfixed.signature hs).1)).mono (fun _ _ _ _ => trivial) ?_)
        rintro _ r ⟨⟨_,hr⟩,hbody⟩
        refine .abandoned hk harity hn (hr.advances.kept ?_) hbody
        rw [kind_modifyFunction_self hd']
        exact List.mem_append_right _ (List.mem_singleton_self _)

end Solver.Follows

namespace Program

variable {location : Location}

theorem Orderly.instantiate_refused (hO : p.Orderly) (n : Nat) (g : EntityId) (args : List Ty) (location : Location) :
    Ends ((upTo n).instantiate g args location) p
      (fun id _ => args ∈ (p.entities.kind g).keys ∨ id = ⟨p.entities.size⟩) fun _ q => p.Refusal g args q := by
  have hS : (upTo n).Follows (fun _ => False) (upTo n) := follows_upTo (Nat.le_refl n)
  refine .run rfl ?_
  split
  · exact hS.instantiateFunction_refused g args location hO
  · exact hS.instantiateObject_refused g args location hO

/-- The object has its layout, or the function has its body resolved. -/
def Completed (p : Program) (id : EntityId) : Prop :=
  match p.entities.kind id with
  | .object d => d.stage = .done
  | .function d => d.bodyStage = .done
  | _ => False

/-- An instance that was not there before is completed. -/
theorem Orderly.completed_of_instantiate (hO : p.Orderly) {n : Nat} (hn : args ∉ (p.entities.kind g).keys)
    (h : (upTo n).instantiate g args location p = .ok id q) : q.Completed id := by
  obtain ⟨hreach,hm⟩ := ((follows_upTo (Nat.le_refl n)).instantiate g args location p hO).of_ok h
  obtain rfl := ((hO.instantiate_refused n g args location).of_ok h).resolve_left hn
  have hinstance := hreach.orderly.kept g args _ hm
  -- Nothing of that name existed, so nothing of it can be left unfinished.
  have hdone : (q.entities.kind ⟨p.entities.size⟩).stage = .done := by
    by_contra hs
    exact absurd (hreach.unfinished _ (by simp) hs).1 (Nat.lt_irrefl _)
  unfold Completed
  cases hk : q.entities.kind ⟨p.entities.size⟩ with
  | object e | function e =>
    rw [hk] at hdone
    exact hdone
  | _ => simp [hk,EntityKind.IsInstance] at hinstance

/-- After a refusal there is a new instance for the arguments only if the refused definition is a function of which the
signature was found. Then every later request gives that instance, whose body is never resolved; and as long as there
is none, an instance that is given is completed. -/
theorem refused_instance_kept (hp : p.Reachable) (n : Nat) (g : EntityId) (args : List Ty) (location : Location)
    {d : Diagnostic} (h : (upTo n).instantiate g args location p = .error d q) :
    (args ∈ (q.entities.kind g).keys ↔ args ∈ (p.entities.kind g).keys ∨ (∃ c, p.entities.kind g = .function c) ∧
      ∃ e, q.entities.kind ⟨p.entities.size⟩ = .function e ∧ e.signature = .done) ∧
    (args ∉ (p.entities.kind g).keys → args ∈ (q.entities.kind g).keys → ∀ r, q.Leads r → ∀ m location',
      (upTo m).instantiate g args location' r = .ok ⟨p.entities.size⟩ r ∧ r.InBody ⟨p.entities.size⟩) ∧
    ∀ r, q.Leads r → args ∉ (r.entities.kind g).keys → ∀ m location' id s,
      (upTo m).instantiate g args location' r = .ok id s → s.Completed id := by
  have hO := hp.orderly
  have hrefusal := (hO.instantiate_refused n g args location).of_error h
  have hleaves := ((follows_upTo (Nat.le_refl n)).instantiate g args location p hO).of_error h
  refine ⟨hrefusal.mem_keys_iff,fun hn hm r hr m location' => ?_,fun r hr hn m location' id s hs => ?_⟩
  · have hl := hr.leaves hleaves.orderly
    cases hrefusal with
    | unbegun he => exact absurd (he ▸ hm) hn
    | unkept _ hq _ => exact absurd hm hq
    | abandoned hk harity _ hkept hbody =>
      have happlies : p.Applies g args := .of_kind hk (by simp) harity
      exact ⟨hl.orderly.instantiate_kept _ (hl.advances.kept hkept)
        (happlies.of_advances (hleaves.trans hl).advances) location',hbody.leaves hl⟩
  · exact (hr.leaves hleaves.orderly).orderly.completed_of_instantiate hn hs

private def refusesAll : String :=
  "(fn bad (type_params T) (parameters (: a T)) (return_type i32) (nothing a))" ++
    "(obj Odd (type_params T) (: x (Missing T)))"

private def refusedTwice (source : String) : Bool :=
  okAnd (fun scope p => okAnd (fun _ q =>
    match named? q scope "Odd", named? q scope "bad" with
    | some odd, some bad =>
      match instantiate odd [.prim .i32] q with
      | .ok _ _ => false
      | .error _ r =>
        match instantiate bad [.prim .i32] r with
        | .ok _ _ => false
        | .error _ s => okAnd (fun _ _ => true) (instantiate bad [.prim .i32] s) &&
          !(r.entities.kind odd).keys.contains [.prim .i32] &&
          !(r.entities.kind bad).keys.contains [.prim .i32] && (s.entities.kind bad).keys.contains [.prim .i32]
    | _, _ => false) (resolveProgram p)) (scan [] "main.vast" source initial)

private theorem exists_of_refusedTwice {source : String} (h : refusedTwice source = true) :
    ∃ (q r s : Program) (odd bad : EntityId) (d e : Diagnostic), q.Reachable ∧ r.Reachable ∧
      instantiate odd [.prim .i32] q = .error d r ∧ instantiate bad [.prim .i32] r = .error e s ∧
      (∃ id t, instantiate bad [.prim .i32] s = .ok id t) ∧ [.prim .i32] ∉ (r.entities.kind odd).keys ∧
      [.prim .i32] ∉ (r.entities.kind bad).keys ∧
      [.prim .i32] ∈ (s.entities.kind bad).keys := by
  obtain ⟨scope,p,hp,h⟩ := okAnd_iff.mp h
  obtain ⟨_,q,hq,h⟩ := okAnd_iff.mp h
  split at h
  · rename_i odd bad _ _
    split at h
    · cases h
    rename_i d r hodd
    split at h
    · cases h
    rename_i e s hbad
    simp only [Bool.and_eq_true,Bool.not_eq_true',List.contains_eq_mem,decide_eq_true_eq,
      decide_eq_false_iff_not,okAnd_iff,and_true] at h
    have hreachable : q.Reachable := (scanned_of_scan hp).reachable.step .resolve (.inl ⟨(),hq⟩)
    refine ⟨q,r,s,odd,bad,d,e,hreachable,?_,hodd,hbad,h.1.1.1,h.1.1.2,h.1.2,h.2⟩
    exact hreachable.step (.instantiate q.budget odd [.prim .i32] .builtin) (.inr ⟨d,hodd⟩)
  · cases h

private theorem refusesAll_refusedTwice : refusedTwice refusesAll = true := by decide +kernel

theorem refused_instance_kept_sample : ∃ (q r s : Program) (odd bad : EntityId) (d e : Diagnostic),
    q.Reachable ∧ instantiate odd [.prim .i32] q = .error d r ∧ instantiate bad [.prim .i32] r = .error e s ∧
    [.prim .i32] ∉ (q.entities.kind odd).keys ∧
    (∃ c, s.entities.kind ⟨r.entities.size⟩ = .function c ∧ c.signature = .done) ∧
    (upTo 7).instantiate bad [.prim .i32] .builtin s = .ok ⟨r.entities.size⟩ s ∧ s.InBody ⟨r.entities.size⟩ := by
  obtain ⟨q,r,s,odd,bad,d,e,hq,hr,hodd,hbad,_,hnone,hbefore,hafter⟩ := exists_of_refusedTwice refusesAll_refusedTwice
  have hfirst := refused_instance_kept hq q.budget odd [.prim .i32] .builtin hodd
  have hsecond := refused_instance_kept hr r.budget bad [.prim .i32] .builtin hbad
  have hgiven := hsecond.2.1 hbefore hafter s .refl 7 .builtin
  exact ⟨q,r,s,odd,bad,d,e,hq,hodd,hbad,fun hm => hnone (hfirst.1.mpr (.inl hm)),
    ((hsecond.1.mp hafter).resolve_left hbefore).2,hgiven.1,hgiven.2⟩

/-- A refusal may keep an instance, which is then given although its body was refused. -/
theorem refused_body_given_again : ∃ (p q r : Program) (g id : EntityId) (d : Diagnostic), p.Reachable ∧
    instantiate g [.prim .i32] p = .error d q ∧ [.prim .i32] ∉ (p.entities.kind g).keys ∧
    [.prim .i32] ∈ (q.entities.kind g).keys ∧ instantiate g [.prim .i32] q = .ok id r := by
  obtain ⟨_,p,q,_,bad,_,d,_,hp,_,hbad,⟨id,r,hagain⟩,_,hbefore,hafter⟩ := exists_of_refusedTwice refusesAll_refusedTwice
  exact ⟨p,q,r,bad,id,d,hp,hbad,hbefore,hafter,hagain⟩

end Program

end FormCompiler
