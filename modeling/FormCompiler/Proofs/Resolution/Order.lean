import FormCompiler.Proofs.Resolution.Actions
import FormCompiler.Proofs.Resolution.Changes

/-! Every action of resolution advances the program by single changes, and one that is not refused also settles what it
started. An action is described by how it ends: what holds of its result, and what holds of the program that a refusal
leaves. Two runs of an action are compared along with it, of which the first one may run out of budget earlier. -/

namespace FormCompiler

open EntityTable List

variable {q p : Program} {args : List Ty} {G : EntityId → Prop} {generic : EntityId} {lo : Option Nat}
  {expected found : Nat} {α β : Type} {d : Diagnostic} {name : String} {location : Location}

theorem EntityTable.kind_of_alias? {t : EntityTable} {id : EntityId} {d : AliasDef} (h : (t.get id).alias? = some d) :
    t.kind id = .typeAlias d := by
  unfold Entity.alias? at h
  unfold kind
  split at h <;> simp_all

namespace Check

variable {x : Check α} {f : α → Check β}

/-- How an action ends when it is run on a program. -/
def Ends (x : Check α) (p : Program) (ok : α → Program → Prop) (refused : Diagnostic → Program → Prop) : Prop :=
  match x p with
  | .ok a q => ok a q
  | .error d q => refused d q

/-- The action ends with a program, refused or not. -/
def EndsIn (x : Check α) (p q : Program) : Prop := (∃ a, x p = .ok a q) ∨ ∃ d, x p = .error d q

namespace Ends

variable {ok R : α → Program → Prop} {refused E : Diagnostic → Program → Prop}

theorem of_ok (h : Ends x p ok refused) {a : α} (hx : x p = .ok a q) : ok a q := by
  simpa only [Ends,hx] using h

theorem of_error (h : Ends x p ok refused) (hx : x p = .error d q) : refused d q := by
  simpa only [Ends,hx] using h

theorem endsIn {P : Program → Prop} (h : Ends x p (fun _ r => P r) fun _ r => P r) (hx : x.EndsIn p q) : P q := by
  rcases hx with ⟨a,hx⟩ | ⟨d,hx⟩
  · exact h.of_ok hx
  · exact h.of_error hx

theorem mono (h : Ends x p ok refused) (hok : ∀ a q, x p = .ok a q → ok a q → R a q)
    (hrefused : ∀ d q, refused d q → E d q) : Ends x p R E := by
  unfold Ends at *
  cases hx : x p with
  | ok a q => exact hok a q hx (by simpa only [hx] using h)
  | error d q => exact hrefused d q (by simpa only [hx] using h)

/-- Two facts about how an action ends. -/
theorem and (h : Ends x p ok refused) (k : Ends x p R E) :
    Ends x p (fun a q => ok a q ∧ R a q) fun d q => refused d q ∧ E d q := by
  unfold Ends at *
  split at h <;> rename_i hx <;> simp only [hx] at k ⊢ <;> exact ⟨h,k⟩

theorem bind {ok : β → Program → Prop} (h : Ends x p R refused)
    (hf : ∀ a q, x p = .ok a q → R a q → Ends (f a) q ok refused) : Ends (x >>= f) p ok refused := by
  show match (EStateM.bind x f) p with | .ok b q => ok b q | .error d q => refused d q
  unfold Ends at h hf
  unfold EStateM.bind
  cases hx : x p with
  | ok a q => exact hf a q hx (by simpa only [hx] using h)
  | error d q => simpa only [hx] using h

theorem afterwards {after : Program → Program}
    (h : Ends x p (fun a q => ok a (after q)) (fun d q => refused d (after q))) :
    Ends (Check.afterwards after x) p ok refused := by
  unfold Ends Check.afterwards at *
  cases hx : x p with
  | ok a q => simpa only [hx] using h
  | error d q => simpa only [hx] using h

/-- A first action whose outcome is known. -/
theorem run {ok : β → Program → Prop} {a : α} (hx : x p = .ok a q) (h : Ends (f a) q ok refused) :
    Ends (x >>= f) p ok refused := by
  refine bind (R := fun b r => b = a ∧ r = q) ?_ ?_
  · simp only [Ends,hx,and_self]
  · rintro _ _ _ ⟨rfl,rfl⟩
    exact h

/-- A branch followed by the same action on both sides. -/
theorem ite_bind {ok : β → Program → Prop} {c : Prop} [Decidable c] {y : Check α}
    (h : Ends ((if c then x else y) >>= f) p ok refused) : Ends (if c then x >>= f else y >>= f) p ok refused := by
  split at h
  · simpa only [if_pos ‹c›] using h
  · simpa only [if_neg ‹¬c›] using h

theorem expectArity {ok : β → Program → Prop} {f : Unit → Check β}
    (hf : expected = found → Ends (f ()) p ok refused) (hr : ∀ d : Diagnostic, d.cause.Ordinary → refused d p) :
    Ends (Check.expectArity name expected found location >>= f) p ok refused := by
  unfold Check.expectArity
  split
  · exact hf ‹_›
  · exact hr _ (by simp [Diagnostic.here])

theorem enterInstance {ok : β → Program → Prop} {f : Unit → Check β}
    (hf : (generic, args) ∉ p.instantiating → p.instanceDepth < instanceLimit →
      Ends (f ()) (p.entering generic args) ok refused)
    (hr : ∀ d : Diagnostic, d.cause.Ordinary → refused d p) :
    Ends (Check.enterInstance generic args location >>= f) p ok refused := by
  by_cases hc : (p.instantiating.contains (generic, args) || decide (instanceLimit ≤ p.instanceDepth)) = true
  · have he : Check.enterInstance generic args location p = .error (.here location (.cyclicInstantiation
        ((p.entities.get generic).name ++ "<" ++ ", ".intercalate (args.map p.entities.typeName) ++ ">"))) p := by
      show (if _ then _ else _ : Check Unit) p = _
      rw [if_pos hc]
      rfl
    refine bind (R := fun _ _ => False) ?_ (by simp)
    unfold Ends
    rw [he]
    exact hr _ (by simp [Diagnostic.here])
  · have he : Check.enterInstance generic args location p = .ok () (p.entering generic args) := by
      show (if _ then _ else _ : Check Unit) p = _
      rw [if_neg hc]
      rfl
    simp only [Bool.or_eq_true,contains_eq_mem,decide_eq_true_eq,not_or,Nat.not_le] at hc
    refine bind (R := fun _ q => q = p.entering generic args) ?_ ?_
    · unfold Ends
      rw [he]
    · rintro _ _ _ rfl
      exact hf hc.1 hc.2

end Ends

/-- The action, stopped before or after it where `stop` says so. -/
def watched (stop : Program → Bool) (x : Check α) : Check α := fun p =>
  if stop p then .error ⟨.unfinished,none⟩ p
  else
    match x p with
    | .ok a q => if stop q then .error ⟨.unfinished,none⟩ q else .ok a q
    | .error d q => .error d q

section Watched

variable {stop : Program → Bool}

private theorem watched_of_stop (hs : stop p = true) : x.watched stop p = .error ⟨.unfinished,none⟩ p := if_pos hs

private theorem watched_of_ok (hs : ¬stop p = true) {a : α} (hx : x p = .ok a q) :
    x.watched stop p = if stop q then .error ⟨.unfinished,none⟩ q else .ok a q := by
  unfold Check.watched
  rw [if_neg hs,hx]

private theorem watched_of_error (hs : ¬stop p = true) (hx : x p = .error d q) : x.watched stop p = .error d q := by
  unfold Check.watched
  rw [if_neg hs,hx]

theorem Ends.watched {ok : α → Program → Prop} {refused : Diagnostic → Program → Prop} (h : Ends x p ok refused)
    (hp : stop p = true → refused ⟨.unfinished,none⟩ p)
    (hok : ∀ a q, ok a q → stop q = true → refused ⟨.unfinished,none⟩ q) : Ends (x.watched stop) p ok refused := by
  unfold Ends
  by_cases hs : stop p = true
  · rw [watched_of_stop hs]
    exact hp hs
  cases hx : x p with
  | error d q =>
    rw [watched_of_error hs hx]
    exact h.of_error hx
  | ok a q =>
    rw [watched_of_ok hs hx]
    by_cases hq : stop q = true
    · rw [if_pos hq]
      exact hok a q (h.of_ok hx) hq
    · rw [if_neg hq]
      exact h.of_ok hx

end Watched

end Check

/-! ### Two runs -/

/-- What is known of a program that an action starts from: no scope below `lo` is changed from here on. -/
structure Program.Prepared (G : EntityId → Prop) (lo : Option Nat) (p : Program) : Prop where
  orderly : p.Orderly
  avoids : p.Avoids G
  scopes : ∀ n, lo = some n → n ≤ p.scopes.size

namespace Program.Prepared

theorem evolve (h : p.Prepared G lo) (he : p.Evolves G lo q) (hO : q.Orderly) : q.Prepared G lo := by
  refine ⟨hO,he.avoids h.avoids,?_⟩
  rintro n rfl
  exact Nat.le_trans (h.scopes n rfl) he.confined.1

theorem quiet (h : p.Prepared G lo) : p.Prepared G none := ⟨h.orderly,h.avoids,by simp⟩

/-- Nothing is known but order. -/
theorem of_orderly (hO : p.Orderly) : p.Prepared (fun _ => False) (some 0) := ⟨hO,p.avoids_none,by simp⟩

end Program.Prepared

namespace Check

variable {refused : Program → Prop} {x y : Check α} {f g : α → Check β} {R : α → Program → Prop}

/-- The first action does what the second one does, or its budget runs out at a moment that the second one goes on
from. -/
def Tracks (G : EntityId → Prop) (lo : Option Nat) (x y : Check α) (p : Program) : Prop :=
  x p = y p ∨ ∃ location m, x p = .error ⟨.unfinished,location⟩ m ∧
    Ends y p (fun _ q => m.Evolves G lo q) fun _ q => m.Evolves G lo q

/-- The first action tracks the second one, which makes changes one by one and ends as stated. -/
structure Steps (G : EntityId → Prop) (lo : Option Nat) (x y : Check α) (p : Program) (ok : α → Program → Prop)
    (refused : Program → Prop) : Prop where
  tracks : Tracks G lo x y p
  ends : Ends y p (fun a q => p.Evolves G lo q ∧ ok a q) fun _ q => p.Evolves G lo q ∧ refused q

namespace Steps

variable {ok : α → Program → Prop} {ok' : β → Program → Prop}

theorem mono {E : Program → Prop} (h : Steps G lo x y p ok refused)
    (hok : ∀ a q, ok a q → R a q) (hr : ∀ q, refused q → E q) : Steps G lo x y p R E :=
  ⟨h.tracks,h.ends.mono (fun a q _ k => ⟨k.1,hok a q k.2⟩) fun _ q k => ⟨k.1,hr q k.2⟩⟩

theorem same (h : Ends x p (fun a q => p.Evolves G lo q ∧ ok a q) fun _ q => p.Evolves G lo q ∧ refused q) :
    Steps G lo x x p ok refused := ⟨.inl rfl,h⟩

theorem throw (d : Diagnostic) (hp : refused p) : Steps G lo (throw d : Check α) (throw d) p ok refused :=
  .same ⟨.refl p,hp⟩

theorem pure {a : α} (ha : ok a p) : Steps G lo (pure a : Check α) (pure a) p ok refused := .same ⟨.refl p,ha⟩

theorem bind (h : Steps G lo x y p R refused)
    (hf : ∀ a q, y p = .ok a q → p.Evolves G lo q → R a q → Steps G lo (f a) (g a) q ok' refused) :
    Steps G lo (x >>= f) (y >>= g) p ok' refused := by
  constructor
  · show EStateM.bind x f p = EStateM.bind y g p ∨ ∃ location m, EStateM.bind x f p = .error ⟨.unfinished,location⟩ m ∧
      Ends (y >>= g) p (fun _ q => m.Evolves G lo q) fun _ q => m.Evolves G lo q
    rcases h.tracks with he | ⟨location,m,hx,hm⟩
    · unfold EStateM.bind
      rw [he]
      cases hy : y p with
      | error d q => exact .inl rfl
      | ok a q =>
        obtain ⟨he,ha⟩ := h.ends.of_ok hy
        rcases (hf a q hy he ha).tracks with he | ⟨location,m,hm,hend⟩
        · exact .inl he
        · exact .inr ⟨location,m,hm,.run hy hend⟩
    · refine .inr ⟨location,m,by unfold EStateM.bind; rw [hx],hm.bind fun a q hy hq => ?_⟩
      obtain ⟨he,ha⟩ := h.ends.of_ok hy
      exact (hf a q hy he ha).ends.mono (fun _ _ _ k => hq.trans k.1) fun _ _ k => hq.trans k.1
  · refine Ends.bind (h.ends.mono (fun _ _ _ k => k) fun _ _ k => k) fun a q hy ⟨he,ha⟩ => ?_
    exact (hf a q hy he ha).ends.mono (fun _ _ _ k => ⟨he.trans k.1,k.2⟩) fun _ _ k => ⟨he.trans k.1,k.2⟩

/-- A first action whose outcome is known. -/
theorem run {a : α} (hx : x p = .ok a q) (he : p.Evolves G lo q) (h : Steps G lo (f a) (g a) q ok' refused) :
    Steps G lo (x >>= f) (x >>= g) p ok' refused := by
  refine bind (R := fun b r => b = a ∧ r = q) (.same ?_) ?_
  · simp only [Ends,hx,and_self,and_true]
    exact he
  · rintro _ _ _ _ ⟨rfl,rfl⟩
    exact h

/-- A first action that only looks. -/
theorem look {a : α} (hx : x p = .ok a p) (h : Steps G lo (f a) (g a) p ok' refused) :
    Steps G lo (x >>= f) (x >>= g) p ok' refused := run hx (.refl p) h

/-- A refusal; what would come after it does not matter. -/
theorem stop (hp : refused p) :
    Steps G lo ((MonadExcept.throw d : Check α) >>= f) ((MonadExcept.throw d : Check α) >>= g) p ok' refused :=
  bind (R := fun _ _ => False) (.throw d hp) fun _ _ _ _ h => h.elim

private theorem afterwards {after : Program → Program} (first : ∀ q : Program, (after q).Evolves G lo q)
    (last : ∀ q : Program, q.Evolves G lo (after q))
    (h : Steps G lo x y p (fun a q => ok a (after q)) fun q => refused (after q)) :
    Steps G lo (Check.afterwards after x) (Check.afterwards after y) p ok refused := by
  constructor
  · rcases h.tracks with hx | ⟨location,m,hx,hm⟩
    · exact .inl (by simp only [Check.afterwards,hx])
    · refine .inr ⟨location,after m,by simp only [Check.afterwards,hx],.afterwards (hm.mono ?_ ?_)⟩
      · exact fun _ q _ k => (first m).trans (k.trans (last q))
      · exact fun _ q k => (first m).trans (k.trans (last q))
  · refine .afterwards (h.ends.mono ?_ ?_)
    · exact fun _ q _ k => ⟨k.1.trans (last q),k.2⟩
    · exact fun _ q k => ⟨k.1.trans (last q),k.2⟩

theorem leavingKey (h : Steps G lo x y p (fun a q => ok a { q with instantiating := q.instantiating.tail })
      fun q => refused { q with instantiating := q.instantiating.tail }) :
    Steps G lo (Check.leavingKey x) (Check.leavingKey y) p ok refused :=
  h.afterwards (fun _ => .tables rfl rfl rfl rfl) fun _ => .tables rfl rfl rfl rfl

theorem leavingDepth (h : Steps G lo x y p (fun a q => ok a { q with instanceDepth := q.instanceDepth - 1 })
      fun q => refused { q with instanceDepth := q.instanceDepth - 1 }) :
    Steps G lo (Check.leavingDepth x) (Check.leavingDepth y) p ok refused :=
  h.afterwards (fun _ => .tables rfl rfl rfl rfl) fun _ => .tables rfl rfl rfl rfl

theorem expectArity {f g : Unit → Check β}
    (h : expected = found → Steps G lo (f ()) (g ()) p ok' refused) (hp : refused p) :
    Steps G lo (Check.expectArity name expected found location >>= f)
      (Check.expectArity name expected found location >>= g) p ok' refused := by
  unfold Check.expectArity
  split
  · exact h ‹_›
  · exact .stop hp

theorem enterInstance {f g : Unit → Check β}
    (h : (generic, args) ∉ p.instantiating → Steps G lo (f ()) (g ()) (p.entering generic args) ok' refused)
    (hp : refused p) :
    Steps G lo (Check.enterInstance generic args location >>= f) (Check.enterInstance generic args location >>= g) p
      ok' refused := by
  refine bind (R := fun _ q => (generic, args) ∉ p.instantiating ∧ q = p.entering generic args) (.same ?_) ?_
  · rw [← bind_pure (Check.enterInstance generic args location)]
    exact Ends.enterInstance (fun hfree _ => ⟨.tables rfl rfl rfl rfl,hfree,rfl⟩) fun _ _ => ⟨.refl p,hp⟩
  · rintro _ _ _ _ ⟨hfree,rfl⟩
    exact h hfree

/-- Both actions stopped before or after them, the second one at fewer programs. -/
theorem watched {stop stop' : Program → Bool} (h : Steps G lo x y p ok refused) (hp : refused p)
    (hok : ∀ a q, ok a q → refused q) (hstop : ∀ p, stop' p = true → stop p = true) :
    Steps G lo (x.watched stop) (y.watched stop') p ok refused := by
  refine ⟨?_,h.ends.watched (fun _ => ⟨.refl p,hp⟩) fun a q k _ => ⟨k.1,hok a q k.2⟩⟩
  have hy : Ends y p (fun _ q => p.Evolves G lo q) fun _ q => p.Evolves G lo q :=
    h.ends.mono (fun _ _ _ k => k.1) fun _ _ k => k.1
  by_cases hs : stop p = true
  · exact .inr ⟨_,p,watched_of_stop hs,hy.watched (fun _ => .refl p) fun _ _ k _ => k⟩
  have hs' : ¬stop' p = true := fun h => hs (hstop p h)
  rcases h.tracks with he | ⟨location,m,hx,hm⟩
  · cases hx : y p with
    | error d q => exact .inl ((watched_of_error hs (he.trans hx)).trans (watched_of_error hs' hx).symm)
    | ok a q =>
      have hx' := watched_of_ok hs (he.trans hx)
      by_cases hq : stop q = true
      · have hend : Ends y p (fun _ r => q.Evolves G lo r) fun _ r => q.Evolves G lo r := by
          unfold Ends
          rw [hx]
          exact .refl q
        exact .inr ⟨_,q,hx'.trans (if_pos hq),hend.watched (fun h => absurd h hs') fun _ _ k _ => k⟩
      · have hq' : ¬stop' q = true := fun h => hq (hstop q h)
        exact .inl ((hx'.trans (if_neg hq)).trans ((watched_of_ok hs' hx).trans (if_neg hq')).symm)
  · exact .inr ⟨location,m,watched_of_error hs hx,hm.watched (fun h => absurd h hs') fun _ _ k _ => k⟩

/-- An action that leaves functions, nodes and scopes alone, among others that do not. -/
theorem widen (h : Steps G none x y p ok refused) (lo : Option Nat) :
    Steps G lo x y p (fun a q => p.Still q ∧ ok a q) refused := by
  refine ⟨?_,h.ends.mono (fun _ _ _ k => ⟨k.1.widen lo,k.1.still,k.2⟩) fun _ _ k => ⟨k.1.widen lo,k.2⟩⟩
  rcases h.tracks with he | ⟨location,m,hx,hm⟩
  · exact .inl he
  · exact .inr ⟨location,m,hx,hm.mono (fun _ _ _ k => k.widen lo) fun _ _ k => k.widen lo⟩

end Steps

/-- The first action tracks the second one, which advances every program and settles what it starts unless it is
refused; then its result is as stated. -/
def Runs (G : EntityId → Prop) (lo : Option Nat) (x y : Check α) (R : α → Program → Prop) : Prop :=
  ∀ p : Program, p.Prepared G lo → Steps G lo x y p (fun a q => p.Reaches none q ∧ R a q) fun q => p.Leaves none q

namespace Runs

variable {w : Option EntityId} {R : α → Program → Prop} {A : α → Prop} {B : β → Prop}

/-- An action after some work on a definition. -/
theorem after (hx : Runs G lo x y R) {ok : β → Program → Prop}
    (h : p.Reaches w q) (hq : q.Prepared G lo) (hl : ∀ r, p.Leaves w r → refused r)
    (hf : ∀ a r, p.Reaches w r → q.Reaches none r → r.Prepared G lo → R a r → Steps G lo (f a) (g a) r ok refused) :
    Steps G lo (x >>= f) (y >>= g) q ok refused := by
  refine ((hx q hq).mono (fun _ _ k => k) fun r k => hl r (h.toLeaves.trans (k.except w))).bind ?_
  exact fun a r _ he k => hf a r (h.trans (k.1.except w)) k.1 (hq.evolve he k.1.orderly) k.2

/-- The same of an action that leaves functions, nodes and scopes alone. -/
theorem quietly (hx : Runs G none x y R) {ok : β → Program → Prop}
    (h : p.Reaches w q) (hq : q.Prepared G lo) (hl : ∀ r, p.Leaves w r → refused r)
    (hf : ∀ a r, p.Reaches w r → q.Reaches none r → q.Still r → r.Prepared G lo → R a r →
      Steps G lo (f a) (g a) r ok refused) : Steps G lo (x >>= f) (y >>= g) q ok refused := by
  refine (((hx q hq.quiet).widen lo).mono (fun _ _ k => k) fun r k => hl r (h.toLeaves.trans (k.except w))).bind ?_
  exact fun a r _ he k => hf a r (h.trans (k.2.1.except w)) k.2.1 k.1 (hq.evolve he k.2.1.orderly) k.2.2

theorem bind (hx : Runs G lo x y fun a _ => A a) (hf : ∀ a, A a → Runs G lo (f a) (g a) fun b _ => B b) :
    Runs G lo (x >>= f) (y >>= g) fun b _ => B b :=
  fun _ hp => hx.after (.refl hp.orderly) hp (fun _ h => h) fun a q h _ hq ha =>
    (hf a ha q hq).mono (fun _ _ k => ⟨h.trans k.1,k.2⟩) fun _ k => h.toLeaves.trans k

theorem imp {R' : α → Program → Prop} (hx : Runs G lo x y R) (hR : ∀ a q, R a q → R' a q) : Runs G lo x y R' :=
  fun p hp => (hx p hp).mono (fun a q k => ⟨k.1,hR a q k.2⟩) fun _ k => k

theorem and {R' : α → Program → Prop} (hx : Runs G lo x y R) (hx' : Runs G lo x y R') :
    Runs G lo x y fun a q => R a q ∧ R' a q :=
  fun p hp => ⟨(hx p hp).tracks,((hx p hp).ends.and (hx' p hp).ends).mono
    (fun _ _ _ k => ⟨k.1.1,k.1.2.1,k.1.2.2,k.2.2.2⟩) fun _ _ k => k.1⟩

theorem widen (hx : Runs G none x y R) (lo : Option Nat) : Runs G lo x y R :=
  fun p hp => ((hx p hp.quiet).widen lo).mono (fun _ _ k => k.2) fun _ k => k

theorem pure {a : α} (ha : ∀ p : Program, p.Avoids G → R a p) : Runs G lo (pure a : Check α) (pure a) R :=
  fun p hp => .pure ⟨.refl hp.orderly,ha p hp.avoids⟩

theorem throw (d : Diagnostic) : Runs G lo (throw d : Check α) (throw d) R := fun _ hp => .throw d (.refl hp.orderly)

/-- A change of tables that resolution does not look into. -/
theorem of_tables {h : Program → α × Program} (he : ∀ p : Program, p.Prepared G lo → p.Evolves G lo (h p).2)
    (hE : ∀ p, (h p).2.entities = p.entities) (hX : ∀ p, (h p).2.exprs = p.exprs)
    (hi : ∀ p, (h p).2.instantiating = p.instantiating) (hd : ∀ p, (h p).2.instanceDepth = p.instanceDepth)
    (hR : ∀ p : Program, p.Prepared G lo → R (h p).1 (h p).2) : Runs G lo (modifyGet h : Check α) (modifyGet h) R :=
  fun p hp => .same ⟨he p hp,.of_tables hp.orderly (hE p) (hX p) (hi p) (hd p),hR p hp⟩

end Runs

/-- The action advances every orderly program, and settles what it starts unless it is refused. -/
def Settling (x : Check α) : Prop :=
  ∀ p : Program, p.Orderly → Ends x p (fun _ q => p.Reaches none q) (fun _ q => p.Leaves none q)

theorem Runs.settling (h : Runs (fun _ => False) (some 0) x y R) : Settling y :=
  fun p hO => (h p (.of_orderly hO)).ends.mono (fun _ _ _ k => k.2.1) fun _ _ k => k.2

/-- What a question about types makes of an orderly program. -/
theorem Runs.reaches (h : Runs (fun _ => False) none x y R) (hO : p.Orderly) {a : α}
    (hy : y p = .ok a q) : p.Reaches none q := ((h.widen (some 0)).settling p hO).of_ok hy

end Check

open Check

namespace Program

variable {key : EntityId × List Ty} {k : EntityKind} {x : Option EntityId} {id g i : EntityId} {d : FunctionDef}

/-- An object has its layout, unless it is generic, and an alias has its type. -/
structure Finished (p : Program) (id : EntityId) : Prop where
  object : ∀ d, p.entities.kind id = .object d → d.isGeneric = false → d.stage = .done
  typeAlias : ∀ d, p.entities.kind id = .typeAlias d → d.stage = .done

/-- An alias without a type that nobody works on waits. -/
theorem Orderly.alias_pending (hO : p.Orderly) {d : AliasDef} (hk : p.entities.kind id = .typeAlias d)
    (hprogress : d.stage ≠ .inProgress) (hdone : ∀ τ, d.stage = .done → d.resolved ≠ some τ) : d.stage = .pending := by
  cases hs : d.stage with
  | pending => rfl
  | inProgress => exact absurd hs hprogress
  | done =>
    obtain ⟨τ,hτ⟩ := Option.isSome_iff_exists.mp ((hO.sane id).named d hk hs)
    exact absurd hτ (hdone τ hs)

/-! ### Work on one definition -/

section Started

variable (hs : (p.entities.kind id).stage = .pending) (hf : ∀ d, p.entities.kind id ≠ .function d)
include hs hf

/-- Work on a definition that was not started is over. -/
theorem Leaves.finishStarted (h : p.Leaves (some id) q) : p.Leaves none q := h.finish (.of_pending hs hf)

theorem Reaches.finishStarted (h : p.Reaches (some id) q) (hd : (q.entities.kind id).stage = .done) :
    p.Reaches none q := ⟨h.toLeaves.finishStarted hs hf,h.settles.finish fun hn => absurd hd hn⟩

end Started

/-- The work on a body starts: from here on the function is in progress. -/
theorem Reaches.startBody (hO : p.Orderly) (hk : p.entities.kind id = .function d) (hs : d.signature = .done)
    (parent : ScopeId) (scope : Option ScopeId) : p.Reaches (some id) { p with
      scopes := (p.scopes.push parent .function).2
      entities := p.entities.modifyFunction id fun d => { d with bodyStage := .inProgress, bodyScope := scope } } := by
  have hscope : p.Reaches (some id) { p with scopes := (p.scopes.push parent .function).2 } :=
    .of_tables hO rfl rfl rfl rfl
  exact hscope.trans (.modifyFunction hscope.orderly hk
    (f := fun d => { d with bodyStage := .inProgress, bodyScope := scope }) (by simp [hs]))

/-- Work on a function is over: the stage of its body is as before, or done. -/
theorem Reaches.finishFunction (h : p.Reaches (some id) q) {e : FunctionDef}
    (hk : p.entities.kind id = .function d) (hk' : q.entities.kind id = .function e) (hf : d.Fixed e)
    (hs : e.bodyStage ≠ .done → e.bodyStage = d.bodyStage) : p.Reaches none q := by
  refine ⟨h.toLeaves.finish ?_,h.settles.finish fun hn => ?_⟩
  · rw [hk,hk']
    exact hf
  · rw [hk'] at hn
    rw [hk,hk']
    exact (hs hn).symm

/-- Work on an object is over that changed nothing of what is found out about it. -/
theorem Reaches.touchObject (h : p.Reaches (some id) q) {d e : ObjectDef} (hk : p.entities.kind id = .object d)
    (hk' : q.entities.kind id = .object e) (he : e.stage = d.stage ∧ e.parent = d.parent ∧ e.fields = d.fields) :
    p.Reaches none q := by
  refine ⟨h.toLeaves.finish ?_,h.settles.finish fun _ => ?_⟩ <;> rw [hk,hk']
  · exact fun _ => he
  · exact he.1.symm

/-! ### Instances -/

/-- The innermost instantiation is no longer in progress. -/
theorem Advances.leaveKey (h : Advances { p with instantiating := key :: p.instantiating } x q) :
    p.Advances x { q with instantiating := q.instantiating.tail } where
  entities := h.entities
  like := h.like
  fixed := h.fixed
  exprs := h.exprs
  shape := h.shape
  instantiating := by rw [h.instantiating]; rfl
  depth := h.depth
  locked g args hg hi := h.locked g args hg (mem_cons_of_mem _ hi)

/-- One instantiation less is nested. -/
theorem Advances.leaveDepth (h : Advances { p with instanceDepth := p.instanceDepth + 1 } x q) :
    p.Advances x { q with instanceDepth := q.instanceDepth - 1 } where
  entities := h.entities
  like := h.like
  fixed := h.fixed
  exprs := h.exprs
  shape := h.shape
  instantiating := h.instantiating
  depth := by rw [h.depth]; rfl
  locked := h.locked

theorem Leaves.leaveKey (h : Leaves { p with instantiating := key :: p.instantiating } x q) :
    p.Leaves x { q with instantiating := q.instantiating.tail } :=
  ⟨h.orderly.of_entities rfl,h.advances.leaveKey⟩

theorem Leaves.leaveDepth (h : Leaves { p with instanceDepth := p.instanceDepth + 1 } x q) :
    p.Leaves x { q with instanceDepth := q.instanceDepth - 1 } := ⟨h.orderly.of_entities rfl,h.advances.leaveDepth⟩

theorem Settles.congr {p' q' : Program} (h : p.Settles x q) (hp : p'.entities = p.entities)
    (hq : q'.entities = q.entities) : p'.Settles x q' := fun id => by
  rw [hp,hq]
  exact h id

/-- A new definition was finished. -/
theorem Settles.of_alloc {kind : EntityKind}
    (h : Settles { p with entities := (p.entities.alloc name location kind).2 } none q)
    (hnew : (q.entities.kind ⟨p.entities.size⟩).stage = .done) : p.Settles none q := by
  intro id hx hs
  rcases p.entities.kind_alloc_cases name location kind id with he | ⟨rfl,_⟩
  · exact he ▸ h id hx hs
  · exact absurd hnew hs

theorem not_mem_keys_of_cached? (h : cached? k.instances args = none) : args ∉ k.keys := by
  simp only [EntityKind.keys,mem_map,not_exists,not_and]
  rintro ⟨a,i⟩ hm rfl
  simpa using lookup_eq_none_iff.mp h _ hm

theorem Advances.kept (h : p.Advances x q) (hm : (args, i) ∈ (p.entities.kind g).instances) :
    (args, i) ∈ (q.entities.kind g).instances := by
  refine (h.like g (lt_size_of_kind fun hk => ?_)).instances.subset hm
  rw [hk] at hm
  cases hm

section Keep

variable (hO : p.Orderly) (hfree : (g, args) ∉ p.instantiating) (hn : args ∉ (p.entities.kind g).keys)
  (hi : (p.entities.kind i).IsInstance g args)
include hO hfree hn hi

/-- An instance is kept under its arguments, for which there was none. -/
private theorem Leaves.keep {f : EntityKind → EntityKind} (hid : g.index < p.entities.size)
    (hf : f (p.entities.kind g) = k) (hl : (p.entities.kind g).Like k)
    (hk : k.instances = (p.entities.kind g).instances ++ [(args, i)])
    (hu : ∀ d, k = .function d → d.signature ≠ .done → d.returnType = none ∧ d.bodyStage = .pending)
    (ha : ∀ d, k ≠ .typeAlias d) : p.Leaves (some g) { p with entities := p.entities.modifyKind g f } := by
  refine .modifyKind hO hid hf hl ⟨?_,hu,fun d hd => absurd hd (ha d)⟩ fun a j hm => ?_
  · rw [EntityKind.keys,hk,map_append]
    exact concat_eq_append ▸ (hO.sane g).keys.concat hn
  · rw [hk,mem_append,mem_singleton,Prod.mk.injEq] at hm
    refine hm.imp_right ?_
    rintro ⟨rfl,rfl⟩
    exact ⟨hfree,hi⟩

theorem Reaches.keepObject {d : ObjectDef} (hk : p.entities.kind g = .object d) : p.Reaches none { p with
      entities := p.entities.modifyObject g fun d => { d with instances := d.instances ++ [(args, i)] } } := by
  refine Reaches.touchObject ⟨?_,.modifyKind p g _⟩ hk (kind_modifyObject_self hk _) ⟨rfl,rfl,rfl⟩
  exact .keep hO hfree hn hi (lt_size_of_kind (by simp [hk]))
    (k := .object { d with instances := d.instances ++ [(args, i)] }) (by rw [hk])
    (hk ▸ .object ⟨rfl,rfl,rfl,rfl,rfl,prefix_append _ _⟩) (by rw [hk]; rfl) (by simp) (by simp)

theorem Reaches.keepFunction (hk : p.entities.kind g = .function d) : p.Reaches none { p with
      entities := p.entities.modifyFunction g fun d => { d with instances := d.instances ++ [(args, i)] } } := by
  refine Reaches.finishFunction ⟨?_,.modifyKind p g _⟩ hk (kind_modifyFunction_self hk _)
    ⟨fun h => ⟨h,rfl,rfl⟩,fun _ => ⟨rfl,rfl⟩⟩ fun _ => rfl
  exact .keep hO hfree hn hi (lt_size_of_kind (by simp [hk]))
    (k := .function { d with instances := d.instances ++ [(args, i)] }) (by rw [hk])
    (hk ▸ .function ⟨rfl,rfl,rfl,prefix_append _ _⟩) (by rw [hk]; rfl)
    (by rintro _ ⟨⟩; exact (hO.sane g).unsigned d hk) (by simp)

end Keep

end Program

end FormCompiler
