import FormCompiler.Compile
import FormCompiler.Proofs.Resolution.Invariant
import FormCompiler.Proofs.Resolution.Order

/-! Reading a body appends its nodes to the arena, refused or not. They are not resolved, and they fill the new part of
the arena with each node behind its parts. -/

namespace FormCompiler

variable {ids : List ExprId} {location : Location} {shape : ExprShape} {p q : Program} {α β : Type}

/-! ### Type expressions as they are written -/

namespace TypeExpr

variable {t : EntityTable}

mutual

/-- No type is filled in where a type expression is read. -/
theorem good_ofForm : ∀ {form : Form} {x : TypeExpr}, ofForm form = .ok x → x.Good t
  | .identifier name location, x, h => by
    cases h
    exact .named
  | .list [] location, x, h => by cases h
  | .list [head] location, x, h => by cases h
  | .list (head :: arg :: args) location, x, h => by
    simp only [ofForm] at h
    cases hid : head.identifier? with
    | none => simp [hid] at h
    | some name =>
      cases hargs : ofForms (arg :: args) with
      | error e => simp [hid,hargs] at h
      | ok types =>
        simp only [hid,hargs,Except.ok.injEq] at h
        cases h
        exact .apply (good_ofForms hargs)
  | .literal value location, x, h => by cases h
  | .string text location, x, h => by cases h

private theorem good_ofForms : ∀ {forms : List Form} {xs : List TypeExpr}, ofForms forms = .ok xs → ∀ x ∈ xs, x.Good t
  | [], xs, h => by
    cases h
    simp
  | form :: forms, xs, h => by
    simp only [ofForms] at h
    cases hx : ofForm form with
    | error e => simp [hx] at h
    | ok y =>
      cases hxs : ofForms forms with
      | error e => simp [hx,hxs] at h
      | ok ys =>
        simp only [hx,hxs,Except.ok.injEq] at h
        cases h
        intro z hz
        rcases List.mem_cons.mp hz with rfl | hz
        · exact good_ofForm hx
        · exact good_ofForms hxs z hz

end

theorem good_typedName {form : Form} {name : String} {x : TypeExpr}
    (h : typedName form = .ok (name, x)) : x.Good t := by
  unfold typedName at h
  split at h
  · split at h
    · split at h
      · cases h
      · rename_i _ _ _ type _ _ _ _ _
        cases hx : ofForm type with
        | error e => simp [hx,Functor.map,Except.map] at h
        | ok y =>
          simp only [hx,Functor.map,Except.map,Except.ok.injEq,Prod.mk.injEq] at h
          exact h.2 ▸ good_ofForm hx
    · cases h
  · cases h

end TypeExpr

/-! ### Nodes as they are read -/

/-- The arms of a match as they are read. -/
structure RawArms (arms : List Arm) : Prop where
  blank : ∀ arm ∈ arms, arm.blank = arm
  good : ∀ t, ∀ arm ∈ arms, ∀ x, arm.pattern = .type x → x.Good t

structure Expr.Fresh (e : Expr) : Prop where
  type : e.type = none
  blank : e.shape.blank = e.shape
  raw : ∀ t, e.shape.Raw t

namespace ExprShape

def Readable : ExprShape → Prop
  | define _ declared _ _ _ => ∀ t, ∀ x ∈ declared.toList, x.Good t
  | call _ _ typeArgs _ => ∀ t, ∀ x ∈ typeArgs, x.Good t
  | select m => RawArms m.arms ∧ (m.arms ≠ [] ∨ m.default.isSome = true)
  | object fields => (fields.map (·.1)).Nodup
  | _ => True

private theorem intros_of_blank (h : shape.blank = shape) : shape.intros = [] := by
  rw [← h]
  cases shape with
  | select m => simp [blank,intros,Arm.blank]
  | _ => rfl

private theorem raw_of_readable (hb : shape.blank = shape) (hs : shape.Readable) (t : EntityTable) : shape.Raw t where
  intros := intros_of_blank hb
  good x hx := by
    cases shape with
    | define | call => exact hs t x hx
    | select m =>
      simp only [typeExprs,List.mem_filterMap] at hx
      obtain ⟨arm,harm,hx⟩ := hx
      cases hp : arm.pattern with
      | literal l => simp [hp] at hx
      | type y =>
        simp only [hp,Option.some.injEq] at hx
        exact hx ▸ hs.1.good t arm harm y hp
    | _ => cases hx
  cases m hm := by
    subst hm
    exact hs.2
  names fields hf := by
    subst hf
    exact hs

private theorem blank_select {operand : ExprId} {bind : Option String} {arms : List Arm} {default : Option ExprId}
    (h : RawArms arms) : (select ⟨operand,bind,arms,default,none⟩).blank = select ⟨operand,bind,arms,default,none⟩ := by
  have : arms.map Arm.blank = arms := by simpa using List.map_congr_left h.blank
  simp [blank,this]

end ExprShape

theorem Expr.fresh_default : (default : Expr).Fresh where
  type := rfl
  blank := rfl
  raw := ExprShape.raw_of_readable rfl trivial

namespace Program

variable {r : Program}

structure Appends (p q : Program) : Prop where
  rest : ∃ a, q = { p with exprs := a }
  size : p.exprs.size ≤ q.exprs.size
  old : ∀ n, n.index < p.exprs.size → q.exprs.get n = p.exprs.get n
  new : ∀ n, p.exprs.size ≤ n.index → (q.exprs.get n).Fresh

/-- Expressions were read: their nodes, and no others, were appended. -/
structure Reads (p : Program) (ids : List ExprId) (q : Program) : Prop where
  appends : p.Appends q
  tiles : q.exprs.Tiles p.exprs.size ids q.exprs.size

theorem Appends.trans (h : p.Appends q) (k : q.Appends r) : p.Appends r where
  rest := by
    obtain ⟨a,rfl⟩ := h.rest
    obtain ⟨b,rfl⟩ := k.rest
    exact ⟨b,rfl⟩
  size := Nat.le_trans h.size k.size
  old n hn := by rw [k.old n (Nat.lt_of_lt_of_le hn h.size),h.old n hn]
  new n hn := by
    by_cases hq : n.index < q.exprs.size
    · rw [k.old n hq]
      exact h.new n hn
    · exact k.new n (Nat.le_of_not_lt hq)

namespace Reads

theorem nil : p.Reads [] p :=
  ⟨⟨⟨p.exprs,rfl⟩,Nat.le_refl _,fun _ _ => rfl,fun _ hn => Arena.get_of_size_le hn ▸ Expr.fresh_default⟩,.nil⟩

theorem append {more : List ExprId} (h : p.Reads ids q) (k : q.Reads more r) : p.Reads (ids ++ more) r :=
  ⟨h.appends.trans k.appends,(h.tiles.of_children fun n _ hn => by rw [k.appends.old n hn]).append k.tiles⟩

end Reads

end Program

/-! ### Reading -/

namespace Body

open Check

/-- The action reads the expressions of its result, which is as stated; refused or not, it only appends nodes. -/
def Reading (x : Check α) (ids : α → List ExprId) (good : α → Prop) : Prop :=
  ∀ p, Ends x p (fun a q => p.Reads (ids a) q ∧ good a) fun _ q => p.Appends q

abbrev ReadsOne (x : Check ExprId) : Prop := Reading x ([·]) fun _ => True

variable {more : β → List ExprId} {good : β → Prop}

theorem Reading.pure {a : α} {ids : α → List ExprId} {good : α → Prop} (hi : ids a = []) (ha : good a) :
    Reading (pure a) ids good := fun _ => ⟨hi ▸ .nil,ha⟩

private theorem Reading.throw (d : Diagnostic) :
    Reading (throw d : Check β) more good := fun _ => Program.Reads.nil.appends

end Body

namespace Program.Reads

open Check Body

variable {ok : β → Program → Prop}

/-- Goes on reading. -/
theorem bind (h : p.Reads ids q) {x : Check α} {more : α → List ExprId} {good : α → Prop} (hx : Reading x more good)
    {f : α → Check β} (hf : ∀ a r, good a → p.Reads (ids ++ more a) r → Ends (f a) r ok fun _ r => p.Appends r) :
    Ends (x >>= f) q ok fun _ r => p.Appends r :=
  ((hx q).mono (fun _ _ _ k => k) fun _ _ k => h.appends.trans k).bind fun a r _ k => hf a r k.2 (h.append k.1)

/-- Goes on where what was written is as it should be. -/
theorem except (h : p.Reads ids q) {e : Except Diagnostic α} {f : α → Check β}
    (hf : ∀ a, e = .ok a → Ends (f a) q ok fun _ r => p.Appends r) :
    Ends (ofExcept e >>= f) q ok fun _ r => p.Appends r := by
  cases e with
  | ok a => exact hf a rfl
  | error d => exact h.appends

private theorem refuse (h : p.Reads ids q) (d : Diagnostic) :
    Ends (throw d : Check β) q ok fun _ r => p.Appends r := h.appends

private theorem done (h : p.Reads ids q) {a : α} {more : α → List ExprId} {good : α → Prop} (hi : more a = ids)
    (ha : good a) :
    Ends (Pure.pure a : Check α) q (fun a r => p.Reads (more a) r ∧ good a) fun _ r => p.Appends r := ⟨hi ▸ h,ha⟩

/-- A node behind its parts. -/
theorem alloc (h : p.Reads shape.children q) (hb : shape.blank = shape) (hs : shape.Readable) :
    Ends (allocExpr shape location) q (fun id r => p.Reads [id] r ∧ True) fun _ r => p.Appends r := by
  have hself := Arena.get_alloc_self (a := q.exprs) shape location
  have hold : ∀ n : ExprId, n.index < q.exprs.size →
      ((q.exprs.alloc shape location).2.get n) = q.exprs.get n := fun n hn => Arena.get_alloc_of_lt hn ..
  show p.Reads [q.exprs.next] { q with exprs := (q.exprs.alloc shape location).2 } ∧ True
  refine ⟨⟨h.appends.trans ⟨⟨_,rfl⟩,by simp,hold,fun n hn => ?_⟩,?_⟩,trivial⟩
  · by_cases hnext : n.index = q.exprs.size
    · rw [show n = q.exprs.next from Arena.ext_of_index hnext,hself]
      exact ⟨rfl,hb,ExprShape.raw_of_readable hb hs⟩
    · rw [Arena.get_of_size_le (by simp; omega)]
      exact Expr.fresh_default
  · have htiles : (q.exprs.alloc shape location).2.Tiles p.exprs.size shape.children q.exprs.size :=
      h.tiles.of_children fun n _ hn => by rw [hold n hn]
    simp only [Arena.size_alloc]
    refine .cons ?_ .nil
    rw [hself]
    exact htiles

end Program.Reads

namespace Body

open Check Program

private theorem reading_definedName (target : Form) :
    Reading (definedName target) (fun _ => []) fun r => ∀ t, ∀ x ∈ r.2.toList, x.Good t := by
  unfold definedName
  split
  · exact .pure rfl (by simp)
  · intro p
    refine Reads.nil.except fun r hr => Reads.nil.done rfl fun t x hx => ?_
    simp only [Option.toList_some,List.mem_singleton] at hx
    exact hx ▸ TypeExpr.good_typedName hr

private theorem reading_pattern (location : Location) (form : Form) :
    Reading (pattern location form) (fun _ => []) fun pattern => ∀ t x, pattern = .type x → x.Good t := by
  unfold pattern
  split
  · exact .pure rfl (by simp)
  · exact .throw _
  · intro p
    refine Reads.nil.except fun x hx => Reads.nil.done rfl fun t y hy => ?_
    cases hy
    exact TypeExpr.good_ofForm hx

private theorem reading_checkArms (location : Location) (arms : List Arm) (default : Option ExprId) :
    Reading (checkArms location arms default) (fun _ => []) fun _ => arms ≠ [] ∨ default.isSome = true := by
  unfold checkArms
  dsimp only
  split
  · exact .throw _
  · split
    · exact .throw _
    · refine .pure rfl ?_
      cases arms <;> cases default <;> simp_all

/-- A match behind its operand. -/
theorem reading_select {operand : Form} {bind : Option String} {arms : List Form} (ho : ReadsOne (ofForm operand))
    (ha : Reading (ofArms arms) (fun r => r.1.map (·.body) ++ r.2.toList) fun r => RawArms r.1) : ReadsOne (do
      let operand ← ofForm operand
      let r ← ofArms arms
      checkArms location r.1 r.2
      allocExpr (.select ⟨operand,bind,r.1,r.2,none⟩) location) := fun _ =>
  Reads.nil.bind ho fun _ _ _ h => h.bind ha fun _ _ harms h => h.bind (reading_checkArms _ _ _) fun _ _ hcases h =>
    (List.append_nil _ ▸ h).alloc (ExprShape.blank_select harms) ⟨harms,hcases⟩

mutual

/-- Reading a form appends one expression. -/
theorem reads_ofForm : ∀ form : Form, ReadsOne (ofForm form)
  | .literal value location => by
    exact fun _ => Reads.nil.alloc rfl trivial
  | .identifier name location => by
    exact fun _ => Reads.nil.alloc rfl trivial
  | .string _ location => by
    exact .throw _
  | .list [] location => by
    exact .throw _
  | .list (head :: args) location => by
    simp only [ofForm]
    split
    · exact .throw _
    · split
      · exact reads_ofCall _ _ _
      · exact fun _ => Reads.nil.bind (reads_ofForms _) fun _ _ _ h => h.alloc rfl trivial
      · exact fun _ => Reads.nil.bind (reading_definedName _) fun _ _ hgood h =>
          h.bind (reads_ofForm _) fun _ _ _ h => h.alloc rfl hgood
      · exact .throw _
      · split
        · exact .throw _
        · exact fun _ => Reads.nil.bind (reads_ofForm _) fun _ _ _ h => h.alloc rfl trivial
      · exact .throw _
      · exact fun _ => Reads.nil.bind (reads_ofForm _) fun _ _ _ h => h.bind (reads_ofForm _) fun _ _ _ h =>
          h.alloc rfl trivial
      · exact fun _ => Reads.nil.bind (reads_ofForm _) fun _ _ _ h => h.bind (reads_ofForm _) fun _ _ _ h =>
          h.bind (reads_ofForm _) fun _ _ _ h => h.alloc rfl trivial
      · exact .throw _
      · exact .throw _
      · exact fun _ => Reads.nil.bind (reads_ofForm _) fun _ _ _ h => h.bind (reads_ofSequence _ _) fun _ _ _ h =>
          h.alloc rfl trivial
      · exact .throw _
      · exact reading_select (reads_ofForm _) (reads_ofArms _)
      · exact reading_select (reads_ofForm _) (reads_ofArms _)
      · exact fun _ => Reads.nil.bind (reads_ofFields _ _) fun _ _ hnames h => h.alloc rfl hnames.1
      · exact .throw _

private theorem reads_ofCall (location : Location) (name : String) : ∀ forms :
    List Form, ReadsOne (ofCall location name forms)
  | [] => by
    exact fun _ => Reads.nil.alloc rfl (by simp [ExprShape.Readable])
  | first :: rest => by
    simp only [ofCall]
    split
    · exact fun _ => Reads.nil.except fun _ hx => Reads.nil.bind (reads_ofForms _) fun _ _ _ h =>
        h.alloc rfl fun t => TypeExpr.good_ofForms hx
    · exact fun _ => Reads.nil.bind (reads_ofForm _) fun _ _ _ h => h.bind (reads_ofForms _) fun _ _ _ h =>
        h.alloc rfl (by simp [ExprShape.Readable])

private theorem reads_ofForms : ∀ forms : List Form, Reading (ofForms forms) id fun _ => True
  | [] => by
    exact .pure rfl trivial
  | form :: forms => by
    exact fun _ => Reads.nil.bind (reads_ofForm _) fun _ _ _ h => h.bind (reads_ofForms _) fun _ _ _ h => h.done rfl trivial

theorem reads_ofSequence (location : Location) : ∀ forms : List Form, ReadsOne (ofSequence location forms)
  | [] => by
    exact fun _ => Reads.nil.alloc rfl trivial
  | form :: forms => by
    refine fun _ => Reads.nil.bind (reads_ofForm _) fun _ _ _ h => ?_
    split
    · exact h.done rfl trivial
    · exact h.bind (reads_ofForms _) fun _ _ _ h => h.alloc rfl trivial

private theorem reads_ofFields (seen : List String) : ∀ fields : List Form, Reading (ofFields seen fields) (·.map (·.2))
    fun given => (given.map (·.1)).Nodup ∧ ∀ x ∈ given, x.1 ∉ seen
  | [] => by
    exact .pure rfl (by simp)
  | .list [colon,name,value] location :: fields => by
    simp only [ofFields]
    split
    · split
      · exact .throw _
      · rename_i hseen
        refine fun _ => Reads.nil.bind (reads_ofForm _) fun id _ _ h => h.bind (reads_ofFields _ _) fun rest _ hrest h =>
          h.done rfl ⟨List.nodup_cons.mpr ⟨fun hm => ?_,hrest.1⟩,fun x hx => ?_⟩
        · obtain ⟨x,hx,he⟩ := List.mem_map.mp hm
          exact hrest.2 x hx (by simp [he])
        · rcases List.mem_cons.mp hx with rfl | hx
          · simpa using hseen
          · exact fun hs => hrest.2 x hx (by simp [hs])
    · exact .throw _
  | .list [] location :: fields | .list [_] location :: fields | .list [_,_] location :: fields
  | .list (_ :: _ :: _ :: _ :: _) location :: fields | .identifier _ _ :: fields | .literal _ _ :: fields
  | .string _ _ :: fields => by
    exact .throw _

private theorem reads_ofArms : ∀ forms : List Form,
    Reading (ofArms forms) (fun r => r.1.map (·.body) ++ r.2.toList) fun r => RawArms r.1
  | [] => by
    exact .pure rfl ⟨by simp,by simp⟩
  | .list (head :: parts) location :: arms => by
    rw [ofArms.eq_def]
    dsimp only
    split
    · refine fun _ => Reads.nil.bind (reading_pattern _ _) fun _ _ hgood h => h.bind (reads_ofSequence _ _) fun _ _ _ h =>
        h.bind (reads_ofArms _) fun r _ harms h => h.done rfl ⟨?_,fun t arm harm => ?_⟩
      · simpa using ⟨rfl,harms.blank⟩
      · rcases List.mem_cons.mp harm with rfl | harm
        · exact hgood t
        · exact harms.good t arm harm
    · exact .throw _
    · refine fun _ => Reads.nil.bind (reads_ofSequence _ _) fun _ _ _ h => ?_
      split
      · exact h.done rfl ⟨by simp,by simp⟩
      · exact h.refuse _
    · exact .throw _
  | .list [] location :: arms | .identifier _ _ :: arms | .literal _ _ :: arms | .string _ _ :: arms => by
    exact .throw _

end

end Body

end FormCompiler
