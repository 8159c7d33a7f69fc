/-
Where the bodies of functions come from.  Every body that a run holds, in code, in values or in the
store, is a node of the code that was run: this is kept by every step, since such a run looks the
same in a guise that spoils all other bodies.
-/
import Scriptlet.Proofs.Nodes
import Scriptlet.Proofs.Relabelled

namespace Scriptlet

variable {N : SyntaxNode → Prop}

open Classical in
/-- A body that is none of some nodes is spoilt by one more statement, and nothing of the
host stays what it is. -/
noncomputable def Guise.within (N : SyntaxNode → Prop) : Guise :=
  ⟨id, id, id, id,
    fun b b' => if N (.block b) then b' else .mk .nowhere (.leave .nowhere :: b.statements),
    false, (· + 1), fun _ h => h⟩

theorem Guise.body_within {b : Block} (h : N (.block b)) (b' : Block) :
    (within N).body b b' = b' :=
  if_pos h

/-- A body that stays is one of the nodes. -/
theorem Guise.within_of_body {b b' : Block} (h : (within N).body b b' = b) : N (.block b) := by
  by_cases hb : N (.block b)
  · exact hb
  · have hspoilt : (within N).body b b' = .mk .nowhere (.leave .nowhere :: b.statements) :=
      if_neg hb
    have hlonger := congrArg (List.length ∘ Block.statements) (hspoilt.symm.trans h)
    exact absurd hlonger (Nat.succ_ne_self _)

mutual

theorem Expr.recast_within (hN : SyntaxNode.Closed N) :
    ∀ e : Expr, N (.expr e) → e.recast (.within N) = e.recast (.ofFile id)
  | .name _, _ | .int _ _ _, _ | .float _ _ _, _ | .str _ _, _ | .bool _ _, _ | .null _, _ => rfl
  | .list _ items, h => by
      rw [Expr.recast, exprsRecast_within hN items (List.forall_mem_map.mp (hN _ h))]
      rfl
  | .unary _ _ operand, h => by
      rw [Expr.recast, operand.recast_within hN (List.forall_mem_singleton.mp (hN _ h))]
      rfl
  | .binary _ _ left right, h => by
      obtain ⟨hleft, hright⟩ := List.forall_mem_cons.mp (hN _ h)
      rw [Expr.recast, left.recast_within hN hleft,
        right.recast_within hN (List.forall_mem_singleton.mp hright)]
      rfl
  | .call _ callee args, h => by
      obtain ⟨hcallee, hargs⟩ := List.forall_mem_cons.mp (hN _ h)
      rw [Expr.recast, callee.recast_within hN hcallee,
        exprsRecast_within hN args (List.forall_mem_map.mp hargs)]
      rfl
  | .member _ object _, h => by
      rw [Expr.recast, object.recast_within hN (List.forall_mem_singleton.mp (hN _ h))]
      rfl
  | .method _ object _ args, h => by
      obtain ⟨hobject, hargs⟩ := List.forall_mem_cons.mp (hN _ h)
      rw [Expr.recast, object.recast_within hN hobject,
        exprsRecast_within hN args (List.forall_mem_map.mp hargs)]
      rfl
  | .index _ object subscript, h => by
      obtain ⟨hobject, hsubscript⟩ := List.forall_mem_cons.mp (hN _ h)
      rw [Expr.recast, object.recast_within hN hobject,
        subscript.recast_within hN (List.forall_mem_singleton.mp hsubscript)]
      rfl
  | .lambda _ _ body, h => by
      have hbody := List.forall_mem_singleton.mp (hN _ h)
      rw [Expr.recast, Guise.body_within hbody, body.recast_within hN hbody]
      rfl

theorem exprsRecast_within (hN : SyntaxNode.Closed N) :
    ∀ es : List Expr, (∀ e ∈ es, N (.expr e)) →
      exprsRecast (.within N) es = exprsRecast (.ofFile id) es
  | [], _ => rfl
  | e :: es, h => by
      obtain ⟨he, hes⟩ := List.forall_mem_cons.mp h
      rw [exprsRecast, e.recast_within hN he, exprsRecast_within hN es hes]
      rfl

theorem Block.recast_within (hN : SyntaxNode.Closed N) :
    ∀ b : Block, N (.block b) → b.recast (.within N) = b.recast (.ofFile id)
  | .mk _ statements, h => by
      rw [Block.recast, stmtsRecast_within hN statements (List.forall_mem_map.mp (hN _ h))]
      rfl

theorem stmtsRecast_within (hN : SyntaxNode.Closed N) :
    ∀ ss : List Stmt, (∀ s ∈ ss, N (.stmt s)) →
      stmtsRecast (.within N) ss = stmtsRecast (.ofFile id) ss
  | [], _ => rfl
  | s :: ss, h => by
      obtain ⟨hs, hss⟩ := List.forall_mem_cons.mp h
      rw [stmtsRecast, s.recast_within hN hs, stmtsRecast_within hN ss hss]
      rfl

theorem Branch.recast_within (hN : SyntaxNode.Closed N) :
    ∀ b : Branch, (∀ n ∈ b.children, N n) → b.recast (.within N) = b.recast (.ofFile id)
  | .mk _ condition body, h => by
      obtain ⟨hcondition, hbody⟩ := List.forall_mem_cons.mp h
      rw [Branch.recast, condition.recast_within hN hcondition,
        body.recast_within hN (List.forall_mem_singleton.mp hbody)]
      rfl

theorem branchesRecast_within (hN : SyntaxNode.Closed N) :
    ∀ bs : List Branch, (∀ b ∈ bs, ∀ n ∈ b.children, N n) →
      branchesRecast (.within N) bs = branchesRecast (.ofFile id) bs
  | [], _ => rfl
  | b :: bs, h => by
      obtain ⟨hb, hbs⟩ := List.forall_mem_cons.mp h
      rw [branchesRecast, b.recast_within hN hb, branchesRecast_within hN bs hbs]
      rfl

theorem Func.recast_within (hN : SyntaxNode.Closed N) :
    ∀ f : Func, N (.block f.body) → f.recast (.within N) = f.recast (.ofFile id)
  | .mk _ _ _ _ body, h => by
      have hbody : N (.block body) := h
      rw [Func.recast, Guise.body_within hbody, body.recast_within hN hbody]
      rfl

theorem funcsRecast_within (hN : SyntaxNode.Closed N) :
    ∀ fs : List Func, (∀ f ∈ fs, N (.block f.body)) →
      funcsRecast (.within N) fs = funcsRecast (.ofFile id) fs
  | [], _ => rfl
  | f :: fs, h => by
      obtain ⟨hf, hfs⟩ := List.forall_mem_cons.mp h
      rw [funcsRecast, f.recast_within hN hf, funcsRecast_within hN fs hfs]
      rfl

/-- Code that is among the nodes looks the same where other bodies are spoilt. -/
theorem Stmt.recast_within (hN : SyntaxNode.Closed N) :
    ∀ s : Stmt, N (.stmt s) → s.recast (.within N) = s.recast (.ofFile id)
  | .expr _ _ value, h => by
      rw [Stmt.recast, value.recast_within hN (List.forall_mem_singleton.mp (hN _ h))]
      rfl
  | .assign _ _ value, h => by
      rw [Stmt.recast, value.recast_within hN (List.forall_mem_singleton.mp (hN _ h))]
      rfl
  | .store _ _ object subscript value, h => by
      obtain ⟨hobject, hrest⟩ := List.forall_mem_cons.mp (hN _ h)
      obtain ⟨hsubscript, hvalue⟩ := List.forall_mem_cons.mp hrest
      rw [Stmt.recast, object.recast_within hN hobject, subscript.recast_within hN hsubscript,
        value.recast_within hN (List.forall_mem_singleton.mp hvalue)]
      rfl
  | .choose _ branches none, h => by
      obtain ⟨hbranches, -⟩ := List.forall_mem_append.mp (hN _ h)
      rw [Stmt.recast, branchesRecast_within hN branches (List.forall_mem_flatMap.mp hbranches)]
      rfl
  | .choose _ branches (some b), h => by
      obtain ⟨hbranches, hb⟩ := List.forall_mem_append.mp (hN _ h)
      rw [Stmt.recast, branchesRecast_within hN branches (List.forall_mem_flatMap.mp hbranches),
        b.recast_within hN (List.forall_mem_singleton.mp hb)]
      rfl
  | .repeatWhile _ condition body, h => by
      obtain ⟨hcondition, hbody⟩ := List.forall_mem_cons.mp (hN _ h)
      rw [Stmt.recast, condition.recast_within hN hcondition,
        body.recast_within hN (List.forall_mem_singleton.mp hbody)]
      rfl
  | .forEach _ _ source body, h => by
      obtain ⟨hsource, hbody⟩ := List.forall_mem_cons.mp (hN _ h)
      rw [Stmt.recast, source.recast_within hN hsource,
        body.recast_within hN (List.forall_mem_singleton.mp hbody)]
      rfl
  | .declare f, h => by
      rw [Stmt.recast, f.recast_within hN (List.forall_mem_singleton.mp (hN _ h))]
      rfl
  | .classDef _ _ _ methods, h => by
      rw [Stmt.recast, funcsRecast_within hN methods (List.forall_mem_map.mp (hN _ h))]
      rfl
  | .giveBack _ none, _ | .leave _, _ | .skip _, _ => rfl
  | .giveBack _ (some e), h => by
      rw [Stmt.recast, e.recast_within hN (List.forall_mem_singleton.mp (hN _ h))]
      rfl

end

namespace Task

/-- Whether every body that a thread holds is one of some nodes. -/
def Embodies (N : SyntaxNode → Prop) (t : Task) : Prop :=
  t.recast (.within N) .ground = t.recast (.ofFile id) .ground

variable {limits : Limits} {t : Task} {s : Store}

theorem Embodies.body (h : t.Embodies N) {f : Closure} {id : Nat} {args : List Value}
    (hcontrol : t.control = .call (.function f id) args) : N (.block f.body) := by
  have hcall := congrArg Task.control h
  simp only [recast, hcontrol, Control.recast] at hcall
  have hfunction := (Value.function.inj (Control.call.inj hcall).1).1
  have hbody : (Guise.within N).body f.body (f.body.recast (.within N)) =
      f.body.recast (.ofFile fun file => file) := congrArg Closure.body hfunction
  rw [Block.recast_ofFile] at hbody
  exact Guise.within_of_body hbody

theorem Embodies.fits (h : t.Embodies N) : t.Fits (.within N) .ground 0 limits s := by
  refine ⟨.inl rfl, .inl ⟨rfl, rfl⟩, .inl rfl, ?_, nofun, ?_, ?_⟩
  · exact fun f id args hcontrol => Guise.body_within (h.body hcontrol) _
  · exact fun o _ f _ p => located_recast_of_known 0 s (fun _ => rfl) f p
  · exact fun x hasks => World.knows_of_foreign Nat.succ_ne_self (hasks.same h) s.outside.host

end Task

namespace World

variable {limits : Limits} {w : World}

/-- Whether every body that a run holds is one of some nodes. -/
def Embodies (N : SyntaxNode → Prop) (w : World) : Prop :=
  w.recast (.within N) .ground 0 = w.recast (.ofFile id) .ground 0

theorem Embodies.main (h : w.Embodies N) : w.main.Embodies N := congrArg World.main h

theorem Embodies.thread (h : w.Embodies N) {entry : Nat × Task} (hmem : entry ∈ w.threads) :
    entry.2.Embodies N :=
  congrArg Prod.snd (List.map_inj_left.mp (congrArg World.threads h) entry hmem)

/-- No event brings in a body from elsewhere. -/
theorem Embodies.move (h : w.Embodies N) (limits : Limits) (e : Event) :
    (w.move limits e).Embodies N := by
  have hwithin : (w.within e.outside).Embodies N := within_alike h rfl
  exact act_alike ⟨rfl, rfl⟩ ⟨rfl, rfl⟩
    ⟨hwithin.main.fits, fun _ hmem => (hwithin.thread hmem).fits⟩
    (World.fits_ofFile limits _) hwithin e.actor

theorem Embodies.doing (h : w.Embodies N) (hN : SyntaxNode.Closed N) {s : Stmt} (hs : N (.stmt s)) :
    (w.doing (.stmt s [])).Embodies N := by
  unfold Embodies
  rw [doing_recast, doing_recast, h, Control.recast, Control.recast, s.recast_within hN hs]

theorem embodies_initial (N : SyntaxNode → Prop) (file : String) :
    (ofStore .initial file).Embodies N := by
  rw [Embodies, World.recast, World.recast, ofStore, Store.initial_recast _ rfl,
    Store.initial_recast _ rfl]
  rfl

end World

end Scriptlet
