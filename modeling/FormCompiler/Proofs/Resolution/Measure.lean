import Mathlib.Data.Finset.Card
import FormCompiler.Proofs.Resolution.Functions

/-! How much is left to do in a program that is being resolved. Definitions that nobody has started and instantiations
that may still be nested are its load; a body is not deeper than it is long. An action finishes if it never asks more
questions inside each other than these two allow. -/

namespace FormCompiler

open Check

variable {id : EntityId} {length h : Nat} {nodes : List ExprId} {p q : Program} {name : String} {location : Location}

/-! ### Expressions and bodies -/

namespace Arena

variable {a b : Arena} {h' : Nat} {id first root : ExprId}

/-- The node is there, and from it down at most `h` nodes are nested in each other. -/
def Shallow (a : Arena) : Nat → ExprId → Prop
  | 0, _ => False
  | h + 1, id => id.index < a.size ∧ ∀ child ∈ (a.get id).shape.children, a.Shallow h child

theorem Shallow.mono (hs : a.Shallow h id) (hle : h ≤ h') : a.Shallow h' id := by
  induction h generalizing h' id with
  | zero => exact hs.elim
  | succ h ih =>
    obtain ⟨h',rfl⟩ : ∃ m, h' = m + 1 := ⟨h' - 1,by omega⟩
    exact ⟨hs.1,fun child hc => ih (hs.2 child hc) (by omega)⟩

/-- Only the parts of the nodes matter. -/
theorem Shallow.of_children (hs : a.Shallow h id) (hsize : a.size ≤ b.size)
    (hc : ∀ n : ExprId, n.index < a.size → (b.get n).shape.children = (a.get n).shape.children) : b.Shallow h id := by
  induction h generalizing id with
  | zero => exact hs.elim
  | succ h ih =>
    refine ⟨Nat.lt_of_lt_of_le hs.1 hsize,fun child hm => ih (hs.2 child ?_)⟩
    rwa [hc id hs.1] at hm

private theorem Tiles.shallow {lo hi : Nat} {ids : List ExprId} (ht : a.Tiles lo ids hi) (hsize : hi ≤ a.size) :
    ∀ id ∈ ids, a.Shallow (hi - lo) id := by
  induction ht with
  | nil => simp
  | @cons lo id ids hi hchildren hrest ih1 ih2 =>
    have h1 := hchildren.le
    have h2 := hrest.le
    rintro n hn
    rcases List.mem_cons.mp hn with rfl | hn
    · have hn : a.Shallow (n.index - lo + 1) n := ⟨by omega,ih1 (by omega)⟩
      exact hn.mono (by omega)
    · exact (ih2 hsize n hn).mono (by omega)

/-- The nodes from `first` to `root` are one body of at most `length` nodes. -/
structure Spans (a : Arena) (length : Nat) (first root : ExprId) : Prop where
  lt_size : root.index < a.size
  tiles : a.Tiles first.index (a.get root).shape.children root.index
  length_le : root.index + 1 - first.index ≤ length

theorem Spans.shallow (hs : a.Spans length first root) : a.Shallow length root := by
  have hlt := hs.lt_size
  exact (Tiles.shallow (.cons hs.tiles .nil) hlt root (by simp)).mono hs.length_le

private theorem Spans.of_children (hs : a.Spans length first root) (hsize : a.size ≤ b.size)
    (hc : ∀ n : ExprId, n.index < a.size → (b.get n).shape.children = (a.get n).shape.children) :
    b.Spans length first root where
  lt_size := Nat.lt_of_lt_of_le hs.lt_size hsize
  tiles := by
    rw [hc root hs.lt_size]
    exact hs.tiles.of_children fun n _ hn => hc n (Nat.lt_trans hn hs.lt_size)
  length_le := hs.length_le

private theorem Spans.cloneRange (hs : a.Spans length first root) (subst : Subst) :
    (a.cloneRange first root subst).2.Spans length (a.cloneRange first root subst).1.1
      (a.cloneRange first root subst).1.2 := by
  have hf := hs.tiles.le
  have hlt := hs.lt_size
  have hle := hs.length_le
  rw [cloneRange_fst]
  refine ⟨?_,hs.tiles.cloneRange subst hlt,?_⟩
  · simp only [size_cloneRange hlt hf,ExprId.shift]
    omega
  · simp only [ExprId.shift]
    omega

end Arena

def FunctionBody.Fits (a : Arena) (length : Nat) (body : FunctionBody) : Prop :=
  ∀ first root, body = .expr first root → a.Spans length first root

def Program.Bodied (length : Nat) (p : Program) : Prop :=
  ∀ f d, p.entities.kind f = .function d → d.body.Fits p.exprs length

namespace Program

variable {x : Option EntityId} {k : EntityKind} {n : ExprId}

namespace Bodied

section

variable (hB : p.Bodied length)
include hB

/-- No other bodies, and the same nodes. -/
theorem of_functions (hsize : p.exprs.size ≤ q.exprs.size)
    (hc : ∀ n : ExprId, n.index < p.exprs.size → (q.exprs.get n).shape.children = (p.exprs.get n).shape.children)
    (hf : ∀ f e, q.entities.kind f = .function e → e.body.Fits q.exprs length ∨
      ∃ d, p.entities.kind f = .function d ∧ e.body = d.body) : q.Bodied length := by
  intro f e hk first root hb
  rcases hf f e hk with hfits | ⟨d,hd,he⟩
  · exact hfits first root hb
  · exact (hB f d hd first root (he ▸ hb)).of_children hsize hc

theorem of_tables (he : q.entities = p.entities) (hx : q.exprs = p.exprs) : q.Bodied length := by
  unfold Bodied
  rw [he,hx]
  exact hB

private theorem modifyKind (id : EntityId) {f : EntityKind → EntityKind}
    (hf : ∀ k e, f k = .function e → ∃ d, k = .function d ∧ e.body = d.body) :
    Bodied length { p with entities := p.entities.modifyKind id f } := by
  refine hB.of_functions (Nat.le_refl _) (fun _ _ => rfl) fun g e hk => .inr ?_
  by_cases hg : g = id
  · subst hg
    by_cases hlt : g.index < p.entities.size
    · exact hf _ e ((EntityTable.kind_modifyKind_self hlt f).symm.trans hk)
    · have hlt' : g.index < (p.entities.modifyKind g f).size := EntityTable.lt_size_of_kind (by simp [hk])
      exact absurd (by simpa using hlt') hlt
  · exact ⟨e,(EntityTable.kind_modifyKind_ne hg f).symm.trans hk,rfl⟩

theorem modifyObject (id : EntityId) (f : ObjectDef → ObjectDef) :
    Bodied length { p with entities := p.entities.modifyObject id f } := by
  refine hB.modifyKind id fun k e hk => ?_
  split at hk
  · cases hk
  · exact ⟨e,hk,rfl⟩

theorem modifyAlias (id : EntityId) (f : AliasDef → AliasDef) :
    Bodied length { p with entities := p.entities.modifyAlias id f } := by
  refine hB.modifyKind id fun k e hk => ?_
  split at hk
  · cases hk
  · exact ⟨e,hk,rfl⟩

theorem modifyFunction (id : EntityId) {f : FunctionDef → FunctionDef}
    (hf : ∀ d, (f d).body = d.body) : Bodied length { p with entities := p.entities.modifyFunction id f } := by
  refine hB.modifyKind id fun k e hk => ?_
  split at hk
  · cases hk
    exact ⟨_,rfl,hf _⟩
  · exact ⟨e,hk,rfl⟩

theorem alloc (name : String) (location : Location) (hk : ∀ d, k = .function d → d.body.Fits p.exprs length) :
    Bodied length { p with entities := (p.entities.alloc name location k).2 } := by
  refine hB.of_functions (Nat.le_refl _) (fun _ _ => rfl) fun f e hf => ?_
  rcases p.entities.kind_alloc_cases name location k f with he | ⟨_,he⟩
  · exact .inr ⟨e,he.symm.trans hf,rfl⟩
  · exact .inl (hk e (he.symm.trans hf))

theorem setType (n : ExprId) (τ : Ty) : Bodied length { p with exprs := p.exprs.setType n τ } := by
  refine hB.of_functions (by simp) (fun j hj => ?_) fun f e hf => .inr ⟨e,hf,rfl⟩
  by_cases he : j = n
  · subst he
    simp only [Arena.get_setType_self hj]
  · simp only [Arena.get_setType_ne he]

end

/-- A node gets other slots after some work that leaves its parts alone. -/
theorem fill (hB : q.Bodied length) (h : p.Advances x q) (hn : n.index < p.exprs.size) {s : ExprShape}
    (hs : s.blank = (p.exprs.get n).shape.blank) : Bodied length { q with exprs := q.exprs.setShape n s } := by
  refine hB.of_functions (by simp) (fun j hj => ?_) fun f e hf => .inr ⟨e,hf,rfl⟩
  by_cases he : j = n
  · subst he
    simp only [Arena.get_setShape_self hj]
    rw [← ExprShape.children_blank,hs,← h.shape j hn,ExprShape.children_blank]
  · simp only [Arena.get_setShape_ne he]

/-- A copy of a body is as long as the body. -/
theorem cloneBody (hB : p.Bodied length) (subst : Subst) {body copy : FunctionBody} {a : Arena}
    (hbody : body.Fits p.exprs length) (h : Solver.cloneBody subst body p = .ok copy { p with exprs := a }) :
    Bodied length { p with exprs := a } ∧ copy.Fits a length := by
  cases body with
  | expr first root =>
    have hs := hbody first root rfl
    cases h
    refine ⟨hB.of_functions ?_ (fun n hn => ?_) fun f e hf => .inr ⟨e,hf,rfl⟩,?_⟩
    · simp [Arena.size]
    · exact congrArg (·.shape.children) (Arena.get_cloneRange_of_lt hn)
    · rintro _ _ ⟨⟩
      exact hs.cloneRange subst
  | _ =>
    obtain ⟨rfl,hp⟩ := pure_ok.mp h
    obtain rfl : p.exprs = a := congrArg Program.exprs hp
    exact ⟨hB,by simp [FunctionBody.Fits]⟩

end Bodied

/-! ### Definitions that wait -/

def waiting (p : Program) : Finset Nat :=
  (Finset.range p.entities.size).filter fun i => (p.entities.kind ⟨i⟩).stage = .pending

private theorem mem_waiting {i : Nat} : i ∈ p.waiting ↔ (p.entities.kind ⟨i⟩).stage = .pending := by
  simp only [waiting,Finset.mem_filter,Finset.mem_range,and_iff_right_iff_imp]
  exact fun h => lt_size_of_stage (i := ⟨i⟩) (by simp [h])

/-- How many definitions can still be started, those that instantiation may add included. An instance is a new
definition, but it also takes one place of the nesting that is left. -/
def load (p : Program) : Nat := p.waiting.card + 2 * (instanceLimit - p.instanceDepth)

private theorem Settles.pending (h : p.Settles x q) (hx : some id ≠ x) (hq : (q.entities.kind id).stage = .pending) :
    (p.entities.kind id).stage = .pending := (h id hx (by simp [hq])).trans hq

theorem load_le (hd : q.instanceDepth = p.instanceDepth) (h : p.Settles x q)
    (hx : ∀ id, x = some id → (q.entities.kind id).stage ≠ .pending) : q.load ≤ p.load := by
  have hsub : q.waiting ⊆ p.waiting := by
    intro i hi
    have hi := mem_waiting.mp hi
    refine mem_waiting.mpr (h.pending (fun he => hx _ he.symm hi) hi)
  have := Finset.card_le_card hsub
  unfold load
  omega

/-- A definition that waited is started. -/
theorem load_lt (h : p.Reaches (some id) q) (hp : (p.entities.kind id).stage = .pending)
    (hq : (q.entities.kind id).stage ≠ .pending) : q.load < p.load := by
  have hsub : q.waiting ⊂ p.waiting := by
    refine (Finset.ssubset_iff_of_subset fun i hi => ?_).mpr ⟨id.index,mem_waiting.mpr hp,?_⟩
    · have hi := mem_waiting.mp hi
      refine mem_waiting.mpr (h.settles.pending (fun he => hq (Option.some.inj he ▸ hi)) hi)
    · rwa [mem_waiting]
  have := Finset.card_lt_card hsub
  unfold load
  rw [h.advances.depth]
  omega

/-- An instance is added while one more instantiation is nested. -/
theorem load_enter (hd : p.instanceDepth < instanceLimit)
    (he : q.entities = (p.entities.alloc name location k).2) (hq : q.instanceDepth = p.instanceDepth + 1) :
    q.load < p.load := by
  have hsub : q.waiting ⊆ insert p.entities.size p.waiting := by
    intro i hi
    have hi := mem_waiting.mp hi
    rw [he] at hi
    rcases p.entities.kind_alloc_cases name location k ⟨i⟩ with hk | ⟨hk,_⟩
    · rw [hk] at hi
      exact Finset.mem_insert_of_mem (mem_waiting.mpr hi)
    · cases hk
      exact Finset.mem_insert_self _ _
  have := Finset.card_le_card hsub
  have := Finset.card_insert_le p.entities.size p.waiting
  unfold load
  omega

theorem load_of_new (p : Program) : p.load ≤ p.entities.size + 2 * instanceLimit := by
  have := Finset.card_filter_le (Finset.range p.entities.size) fun i => (p.entities.kind ⟨i⟩).stage = .pending
  rw [Finset.card_range] at this
  unfold load waiting
  omega

/-! ### Bounded programs -/

/-- Bodies have at most `length` nodes, at most `k` definitions can still be started, and the nodes that are asked
about are at most `h` deep. -/
structure Bounded (length k h : Nat) (nodes : List ExprId) (p : Program) : Prop where
  orderly : p.Orderly
  bodied : p.Bodied length
  load : p.load ≤ k
  shallow : ∀ n ∈ nodes, p.exprs.Shallow h n

variable {k : Nat}

theorem Advances.shallow (ha : p.Advances x q) (hs : p.exprs.Shallow h n) : q.exprs.Shallow h n := by
  refine hs.of_children ha.exprs fun n hn => ?_
  rw [← ExprShape.children_blank,ha.shape n hn,ExprShape.children_blank]

theorem Bounded.reaches (hb : p.Bounded length k h nodes) (hr : p.Reaches x q) (hB : q.Bodied length)
    (hx : ∀ id, x = some id → (q.entities.kind id).stage ≠ .pending) : q.Bounded length k h nodes :=
  ⟨hr.orderly,hB,Nat.le_trans (load_le hr.advances.depth hr.settles hx) hb.load,
    fun n hn => hr.advances.shallow (hb.shallow n hn)⟩

/-- A definition that waited is started. -/
theorem Bounded.start (hb : p.Bounded length k h nodes) (hr : p.Reaches (some id) q) (hB : q.Bodied length)
    (hp : (p.entities.kind id).stage = .pending) (hq : (q.entities.kind id).stage ≠ .pending) :
    ∃ j, k = j + 1 ∧ q.Bounded length j h nodes := by
  have := load_lt hr hp hq
  have := hb.load
  exact ⟨k - 1,by omega,hr.orderly,hB,by omega,fun n hn => hr.advances.shallow (hb.shallow n hn)⟩

/-- An instance is added. -/
theorem Bounded.enter (hb : p.Bounded length k h nodes) (hd : p.instanceDepth < instanceLimit)
    {key : EntityId × List Ty} {kind : EntityKind}
    (hl : Leaves { p with instantiating := key :: p.instantiating, instanceDepth := p.instanceDepth + 1 } none q)
    (he : q.entities = (p.entities.alloc name location kind).2) (hB : q.Bodied length) :
    ∃ j, k = j + 1 ∧ q.Bounded length j h nodes := by
  have := load_enter hd he hl.advances.depth
  have := hb.load
  exact ⟨k - 1,by omega,hl.orderly,hB,by omega,fun n hn => hl.advances.shallow (hb.shallow n hn)⟩

/-- The values of an object literal are nested in it. -/
theorem Bounded.literal {arg : ExprId} {given : List (String × ExprId)} (hb : p.Bounded length k h [arg])
    (hshape : (p.exprs.get arg).shape = .object given) : p.Bounded length k h (given.map (·.2)) := by
  refine { hb with shallow := fun n hm => ?_ }
  have hs := hb.shallow arg (by simp)
  cases h with
  | zero => exact hs.elim
  | succ h => exact (hs.2 n (by rw [hshape]; exact hm)).mono (Nat.le_succ h)

end Program

/-! ### Actions that finish -/

theorem ScopeTable.cause_registerAs {t : ScopeTable} {entities : EntityTable} {scope : ScopeId} {d : Diagnostic}
    (h : t.registerAs entities scope name id location = .error d) : d.cause.Ordinary := by
  unfold ScopeTable.registerAs at h
  dsimp only at h
  split at h
  · cases h
  · split at h
    · cases h
    · cases h
      simp [Diagnostic.here]

namespace Check

variable {α β : Type} {x : Check α} {f : α → Check β} {k : Nat}

theorem Ends.refuses {ok : α → Program → Prop} (location : Location) {cause : Cause} (hc : cause ≠ .unfinished) :
    Ends (Check.fail location cause : Check α) p ok fun d _ => d.cause ≠ .unfinished := hc

theorem Ends.breaks {ok : α → Program → Prop} (location : Location) (fault : SemanticFault) :
    Ends (Check.broken location fault : Check α) p ok fun d _ => d.cause ≠ .unfinished :=
  Ends.refuses location (by simp)

/-- The action does not run out of budget on bounded programs, and adds no longer bodies; its result is as stated. -/
def Finishing (length k h : Nat) (nodes : List ExprId) (x : Check α) (A : α → Prop) : Prop :=
  ∀ p : Program, p.Bounded length k h nodes →
    Ends x p (fun a q => p.Reaches none q ∧ q.Bodied length ∧ A a) fun d _ => d.cause ≠ .unfinished

variable {A : α → Prop} {B : β → Prop}

theorem Runs.finishing {y : Check α} (hx : Runs (fun _ => False) (some 0) y x fun a _ => A a)
    (hends : ∀ p : Program, p.Bounded length k h nodes →
      Ends x p (fun _ q => q.Bodied length) fun d _ => d.cause ≠ .unfinished) : Finishing length k h nodes x A := by
  intro p hb
  have hs := (hx p (.of_orderly hb.orderly)).ends
  exact (hends p hb).mono (fun a q hrun hB => ⟨(hs.of_ok hrun).2.1,hB,(hs.of_ok hrun).2.2⟩) fun _ _ hd => hd

/-- An action that comes after others. -/
theorem Finishing.andThen {ok : β → Program → Prop} (hx : Finishing length k h nodes x A)
    (hb : p.Bounded length k h nodes) (hf : ∀ a q, x p = .ok a q → p.Reaches none q → q.Bounded length k h nodes → A a →
      Ends (f a) q ok fun d _ => d.cause ≠ .unfinished) :
    Ends (x >>= f) p ok fun d _ => d.cause ≠ .unfinished :=
  (hx p hb).bind fun a q hrun hq => hf a q hrun hq.1 (hb.reaches hq.1 hq.2.1 (by simp)) hq.2.2

theorem Finishing.bind (hx : Finishing length k h nodes x A) (hf : ∀ a, A a → Finishing length k h nodes (f a) B) :
    Finishing length k h nodes (x >>= f) B := fun _ hb =>
  hx.andThen hb fun a q _ hr hq ha => (hf a ha q hq).mono (fun _ _ _ h => ⟨hr.trans h.1,h.2⟩) fun _ _ h => h

theorem finishing_register (scope : ScopeId) (id : EntityId) :
    Finishing length k h nodes (register scope id) fun _ => True := by
  refine (Solver.Follows.register (Nat.zero_le _) id).finishing fun p hb => ?_
  show Ends (ofExcept (p.scopes.register p.entities scope id) >>= fun scopes => modify fun p => { p with scopes }) p _ _
  cases hr : p.scopes.register p.entities scope id with
  | ok scopes => exact hb.bodied.of_tables rfl rfl
  | error d => exact (ScopeTable.cause_registerAs hr).1

end Check

end FormCompiler
