import FormCompiler.Proofs.Resolution.Balance
import FormCompiler.Proofs.Resolution.Bodies
import Mathlib.Data.List.Pairwise

/-! Bodies are ranges of the arena. Each node of a range stands behind its parts, and all but the last one are parts of
exactly one node. So a body is copied node by node, with parts as far from each other as they were; and as resolution
writes only what a copy leaves out, it does not matter whether a body was resolved before it is copied. -/

namespace FormCompiler

open Check ExprShape List

variable {subst : Subst} {offset : Nat} {first root : ExprId} {p q : Program}

namespace Arena

variable {n : ExprId} {a : Arena} {lo hi : Nat} {ids : List ExprId}

def interval (lo hi : Nat) : List ExprId := (List.range' lo (hi - lo)).map ExprId.mk

private theorem mem_interval : n ∈ interval lo hi ↔ lo ≤ n.index ∧ n.index < hi := by
  simp only [interval,mem_map,mem_range'_1]
  constructor
  · rintro ⟨i,h,rfl⟩
    exact ⟨h.1,by simp only; omega⟩
  · intro h
    exact ⟨n.index,by omega,rfl⟩

private theorem nodup_interval : (interval lo hi).Nodup :=
  (nodup_range' 1).map fun _ _ h => congrArg ExprId.index h

private theorem interval_split {mid : ExprId} (h1 : lo ≤ mid.index) (h2 : mid.index + 1 ≤ hi) :
    interval lo hi = interval lo mid.index ++ mid :: interval (mid.index + 1) hi := by
  have hlen : hi - lo = (mid.index - lo) + ((hi - (mid.index + 1)) + 1) := by omega
  have hmid : lo + (mid.index - lo) = mid.index := by omega
  simp only [interval]
  rw [hlen,← range'_append_1,hmid,range'_succ,map_append,map_cons]

def parts (a : Arena) (lo hi : Nat) : List ExprId := (interval lo hi).flatMap fun n => (a.get n).shape.children

/-- Each node of an interval is outermost in it or a part of another one, and only once. -/
theorem Tiles.perm_interval (h : a.Tiles lo ids hi) : (a.parts lo hi ++ ids).Perm (interval lo hi) := by
  induction h with
  | nil => simp [parts,interval]
  | @cons lo id ids hi hc hn ihc ihn =>
    rw [parts,interval_split hc.le hn.le,flatMap_append,flatMap_cons]
    calc _ = (a.parts lo id.index ++ (a.get id).shape.children) ++ (a.parts (id.index + 1) hi ++ id :: ids) := by
          simp only [parts,append_assoc]
      _ |>.Perm (interval lo id.index ++ (id :: (a.parts (id.index + 1) hi ++ ids))) := ihc.append perm_middle
      _ |>.Perm (interval lo id.index ++ (id :: interval (id.index + 1) hi)) := (ihn.cons id).append_left _

/-- The nodes from `first` to `root` are those of one expression: each stands behind its parts, and each but `root` is
part of exactly one node, once. -/
structure PostOrder (a : Arena) (first root : ExprId) : Prop where
  le : first.index ≤ root.index
  lt_size : root.index < a.size
  before : ∀ n : ExprId, first.index ≤ n.index → n.index ≤ root.index → ∀ part ∈ (a.get n).shape.children,
    first.index ≤ part.index ∧ part.index < n.index
  nodup : ∀ n : ExprId, first.index ≤ n.index → n.index ≤ root.index → (a.get n).shape.children.Nodup
  whole : ∀ n : ExprId, first.index ≤ n.index → n.index < root.index →
    ∃! m : ExprId, (first.index ≤ m.index ∧ m.index ≤ root.index) ∧ n ∈ (a.get m).shape.children

private theorem Tiles.inner (ht : a.Tiles lo ids hi) (hlo : lo ≤ n.index) (hhi : n.index < hi) :
    ∃ x, lo ≤ x ∧ a.Tiles x (a.get n).shape.children n.index :=
  Program.Inv.tiles_inner (p := { Program.initial with exprs := a }) ht n hlo hhi

private theorem Tiles.postOrder (h : a.Tiles first.index (a.get root).shape.children root.index)
    (hr : root.index < a.size) : a.PostOrder first root := by
  have ht : a.Tiles first.index [root] (root.index + 1) := .cons h .nil
  have hperm := ht.perm_interval
  have hnodup : (a.parts first.index (root.index + 1)).Nodup := (nodup_append.mp (hperm.nodup_iff.mpr nodup_interval)).1
  obtain ⟨heach,hapart⟩ := nodup_flatMap.mp hnodup
  refine ⟨h.le,hr,fun n h1 h2 part hp => ?_,fun n h1 h2 => heach n (mem_interval.mpr ⟨h1,by omega⟩), fun n h1 h2 => ?_⟩
  · obtain ⟨x,hx,hn⟩ := ht.inner h1 (Nat.lt_succ_of_le h2)
    obtain ⟨y,hy,hlt,hc⟩ := hn.mem hp
    exact ⟨by have := hc.le; omega,hlt⟩
  · have hmem := hperm.mem_iff.mpr (mem_interval.mpr ⟨h1,by omega⟩)
    rcases mem_append.mp hmem with hmem | hmem
    · obtain ⟨m,hm,hn⟩ := mem_flatMap.mp hmem
      have hm' := mem_interval.mp hm
      refine ⟨m,⟨⟨hm'.1,by omega⟩,hn⟩,fun k hk => ?_⟩
      by_contra hne
      have hk' : k ∈ interval first.index (root.index + 1) := mem_interval.mpr ⟨hk.1.1,by omega⟩
      have : Std.Symm (Function.onFun List.Disjoint fun n => (a.get n).shape.children) := ⟨fun _ _ h _ h1 h2 => h h2 h1⟩
      exact hapart.forall hk' hm hne hk.2 hn
    · cases mem_singleton.mp hmem
      omega

end Arena

namespace Program

private theorem Fresh.postOrder (hp : p.Fresh) {f : EntityId} {d : FunctionDef}
    (hk : p.entities.kind f = .function d) (hb : d.body = .expr first root) : p.exprs.PostOrder first root := by
  have hd := hp.entities f
  rw [hk] at hd
  obtain ⟨hr,ht⟩ := FunctionDef.Fresh.body hd first root hb
  exact ht.postOrder hr

private def twoBodies : String :=
  "(fn pick (type_params T) (parameters (: a T) (: b T)) (block (define c a) (if true c b)))" ++
    "(fn main (parameters (: n i32)) (match n (=> 1 (pick 2 n)) (else n)))"

private def resolvesSecond (source : String) : Bool :=
  okAnd (fun _ p => okAnd (fun _ q => (p.entities.function? ⟨61⟩).any (·.body = .expr ⟨0⟩ ⟨6⟩) &&
    (p.entities.function? ⟨62⟩).any (·.body = .expr ⟨7⟩ ⟨12⟩) && (q.exprs.get ⟨12⟩).type.isSome)
    ((Solver.watched (fun _ => false) p.budget).serve .declarations p))
    (scan [] "main.vast" source initial)

private theorem exists_of_resolvesSecond {source : String} (h : resolvesSecond source = true) :
    ∃ (p q : Program) (d e : FunctionDef), p.Scanned ∧ p.Run q ∧
    p.entities.kind ⟨61⟩ = .function d ∧ d.body = .expr ⟨0⟩ ⟨6⟩ ∧ p.entities.kind ⟨62⟩ = .function e ∧
    e.body = .expr ⟨7⟩ ⟨12⟩ ∧ (q.exprs.get ⟨12⟩).type.isSome = true := by
  obtain ⟨_,p,hp,h⟩ := okAnd_iff.mp h
  obtain ⟨_,q,hq,h⟩ := okAnd_iff.mp h
  simp only [Bool.and_eq_true,Option.any_eq_true,decide_eq_true_eq,EntityTable.function?_eq_some] at h
  obtain ⟨⟨⟨d,hd,hb⟩,e,he,hb'⟩,htyped⟩ := h
  exact ⟨p,q,d,e,scanned_of_scan hp,.step .refl (.inl ⟨_,hq⟩),hd,hb,he,hb',htyped⟩

/-- Every body of a program that was read is a range in which each node stands behind its parts and each but the root is
part of exactly one node. The ranges of different functions have no node in common. -/
theorem bodies_contiguous (hp : p.Scanned) {f : EntityId} {d : FunctionDef} {first root : ExprId}
    (hk : p.entities.kind f = .function d) (hb : d.body = .expr first root) : p.exprs.PostOrder first root ∧
    ∀ g e first' root', g ≠ f → p.entities.kind g = .function e → e.body = .expr first' root' →
      root.index < first'.index ∨ root'.index < first.index := by
  have horder := hp.fresh.postOrder hk hb
  refine ⟨horder,fun g e first' root' hne hg he => ?_⟩
  have horder' := hp.fresh.postOrder hg he
  by_contra hn
  rw [not_or,Nat.not_lt,Nat.not_lt] at hn
  -- Two ranges that overlap have the later one of their first nodes in common.
  by_cases hle : first.index ≤ first'.index
  · exact hne (hp.fresh.bodies g f e d first' hg hk ⟨first',root',he,Nat.le_refl _,horder'.le⟩ ⟨first,root,hb,hle,hn.1⟩)
  · exact hne (hp.fresh.bodies g f e d first hg hk ⟨first',root',he,by omega,hn.2⟩
      ⟨first,root,hb,Nat.le_refl _,horder.le⟩)

theorem bodies_contiguous_sample : ∃ (p : Program) (d e : FunctionDef), p.Scanned ∧ p.entities.kind ⟨61⟩ = .function d ∧
    d.body = .expr ⟨0⟩ ⟨6⟩ ∧ p.entities.kind ⟨62⟩ = .function e ∧ e.body = .expr ⟨7⟩ ⟨12⟩ ∧
    p.exprs.PostOrder ⟨0⟩ ⟨6⟩ ∧ p.exprs.PostOrder ⟨7⟩ ⟨12⟩ := by
  have hcheck : resolvesSecond twoBodies = true := by decide +kernel
  obtain ⟨p, -,d,e,hp, -,hd,hb,he,hb', -⟩ := exists_of_resolvesSecond hcheck
  exact ⟨p,d,e,hp,hd,hb,he,hb',(bodies_contiguous hp hd hb).1,(bodies_contiguous hp he hb').1⟩

end Program

/-! ### Copies -/

/-- What a pattern is apart from the type it names. -/
def Pattern.outline : Pattern → Pattern
  | type _ => type (.resolved .void)
  | literal l => literal l

namespace ExprShape

/-- What a node is apart from its parts, its type expressions and its slots. -/
def outline : ExprShape → ExprShape
  | literal l => literal l
  | name n _ => name n none
  | block body _ => block (body.map fun _ => ⟨0⟩) none
  | define n declared _ mutable _ => define n (declared.map fun _ => .resolved .void) ⟨0⟩ mutable none
  | assign n _ _ => assign n ⟨0⟩ none
  | call n args typeArgs _ => call n (args.map fun _ => ⟨0⟩) (typeArgs.map fun _ => .resolved .void) none
  | object fields => object (fields.map fun field => (field.1, ⟨0⟩))
  | cond _ _ no => cond ⟨0⟩ ⟨0⟩ (no.map fun _ => ⟨0⟩)
  | loop _ _ => loop ⟨0⟩ ⟨0⟩
  | select m => select ⟨⟨0⟩,m.bind,m.arms.map fun arm => ⟨arm.pattern.outline,⟨0⟩,arm.location,none,none⟩,
      m.default.map fun _ => ⟨0⟩,none⟩

private theorem outline_copy (shape : ExprShape) : (shape.copy offset subst).outline = shape.outline := by
  cases shape with
  | select m =>
    have harm : ∀ arm : Arm, (arm.pattern.substitute subst).outline = arm.pattern.outline := fun arm => by
      cases arm.pattern <;> rfl
    simp [copy,outline,Arm.copy,Function.comp_def,harm]
  | _ => simp [copy,outline,Function.comp_def]

private theorem blank_copy (shape : ExprShape) : (shape.copy offset subst).blank = shape.copy offset subst := by
  cases shape <;> simp [copy,blank,Arm.copy,Arm.blank,Function.comp_def]

private theorem copy_blank (shape : ExprShape) : shape.blank.copy offset subst = shape.copy offset subst := by
  cases shape <;> simp [copy,blank,Arm.copy,Arm.blank,Function.comp_def]

end ExprShape

namespace Expr

variable {e c : Expr}

/-- The second node is the first one with its parts `offset` places further on and types filled in. Nothing in it is
resolved. -/
structure CopiedTo (offset : Nat) (subst : Subst) (e c : Expr) : Prop where
  outline : c.shape.outline = e.shape.outline
  location : c.location = e.location
  children : c.shape.children = e.shape.children.map (·.shift offset)
  typeExprs : c.shape.typeExprs = e.shape.typeExprs.map (·.substitute subst)
  blank : c.blank = c

private theorem copiedTo_copy (offset : Nat) (subst : Subst) (e : Expr) :
    e.CopiedTo offset subst (e.copy offset subst) where
  outline := outline_copy _
  location := rfl
  children := children_copy _
  typeExprs := typeExprs_copy _
  blank := by simp only [Expr.blank,copy,blank_copy]

/-- A copy depends on nothing that resolution writes. -/
theorem copy_congr (h : c.blank = e.blank) : c.copy offset subst = e.copy offset subst := by
  simp only [Expr.blank,Expr.mk.injEq,and_true] at h
  rw [copy,copy,← copy_blank c.shape,h.1,copy_blank,h.2]

end Expr

namespace Program

/-- A body that was read is copied at any time after, resolved or not: the copy is appended, its nodes are copies of the
nodes of the body with parts inside the copy, and they are the same that were copied from the body as it was read. -/
theorem body_copied (hp : p.Scanned) (hq : p.Run q) {f : EntityId} {d : FunctionDef} {first root : ExprId}
    (hk : p.entities.kind f = .function d) (hb : d.body = .expr first root) (subst : Subst) :
    let offset := q.exprs.size - first.index
    let copied := q.exprs.cloneRange first root subst
    copied.1 = (⟨q.exprs.size⟩, root.shift offset) ∧
    copied.2.size = q.exprs.size + (root.index - first.index + 1) ∧
    (∀ n : ExprId, n.index < q.exprs.size → copied.2.get n = q.exprs.get n) ∧
    ∀ n : ExprId, first.index ≤ n.index → n.index ≤ root.index →
      (q.exprs.get n).CopiedTo offset subst (copied.2.get (n.shift offset)) ∧
      (∀ part ∈ (copied.2.get (n.shift offset)).shape.children,
        q.exprs.size ≤ part.index ∧ part.index < (n.shift offset).index) ∧
      copied.2.get (n.shift offset) = (p.exprs.get n).copy offset subst := by
  intro offset copied
  have horder := hp.fresh.postOrder hk hb
  have hkeeps := hq.keeps
  have hr : root.index < q.exprs.size := Nat.lt_of_lt_of_le horder.lt_size hkeeps.size
  have hle := horder.le
  refine ⟨rfl,?_,fun n hn => Arena.get_cloneRange_of_lt hn,fun n h1 h2 => ?_⟩
  · rw [Arena.size_cloneRange hr hle]
    omega
  have hcopy : copied.2.get (n.shift offset) = (q.exprs.get n).copy offset subst := Arena.get_cloneRange_shift hr h1 h2
  have hsame : copied.2.get (n.shift offset) = (p.exprs.get n).copy offset subst :=
    hcopy.trans (Expr.copy_congr (hkeeps.nodes n (Nat.lt_of_le_of_lt h2 horder.lt_size)))
  refine ⟨hcopy ▸ Expr.copiedTo_copy offset subst _,fun part hpart => ?_,hsame⟩
  rw [hsame,((p.exprs.get n).copiedTo_copy offset subst).children] at hpart
  obtain ⟨old,hold,rfl⟩ := mem_map.mp hpart
  obtain ⟨hlo,hlt⟩ := horder.before n h1 h2 old hold
  simp only [ExprId.shift,offset]
  omega

theorem body_copied_sample : ∃ (p q : Program) (d : FunctionDef), p.Scanned ∧ p.Run q ∧
    p.entities.kind ⟨62⟩ = .function d ∧ d.body = .expr ⟨7⟩ ⟨12⟩ ∧ (q.exprs.get ⟨12⟩).type.isSome = true ∧
    (q.exprs.cloneRange ⟨7⟩ ⟨12⟩ []).2.size = q.exprs.size + 6 ∧
    (q.exprs.cloneRange ⟨7⟩ ⟨12⟩ []).2.get (ExprId.shift (q.exprs.size - 7) ⟨12⟩) =
      (p.exprs.get ⟨12⟩).copy (q.exprs.size - 7) [] := by
  have hcheck : resolvesSecond twoBodies = true := by decide +kernel
  obtain ⟨p,q, -,e,hp,hq, -, -,he,hb,ht⟩ := exists_of_resolvesSecond hcheck
  obtain ⟨-,hsize, -,hnodes⟩ := body_copied hp hq he hb []
  exact ⟨p,q,e,hp,hq,he,hb,ht,hsize,(hnodes ⟨12⟩ (by decide) (by decide)).2.2⟩

end Program

end FormCompiler
