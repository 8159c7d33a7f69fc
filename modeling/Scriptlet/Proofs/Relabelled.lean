/-
Runs whose files go by other names.  A guise that changes nothing but names of
files leaves code and values as they are; it shows in reports of failures and in
what is known of threads only.
-/
import Scriptlet.Proofs.GuiseWorlds

namespace Scriptlet

section

variable (f : String → String)

theorem params_recast_ofFile (ps : List Param) : ps.map (Param.recast (.ofFile f)) = ps :=
  List.map_id ps

mutual

theorem Expr.recast_ofFile : ∀ e : Expr, e.recast (.ofFile f) = e
  | .name _ | .int _ _ _ | .float _ _ _ | .str _ _ | .bool _ _ | .null _ => rfl
  | .list _ items => by
      rw [Expr.recast, exprsRecast_ofFile items]
      rfl
  | .unary _ _ operand => by
      rw [Expr.recast, operand.recast_ofFile]
      rfl
  | .binary _ _ left right => by
      rw [Expr.recast, left.recast_ofFile, right.recast_ofFile]
      rfl
  | .call _ callee args => by
      rw [Expr.recast, callee.recast_ofFile, exprsRecast_ofFile args]
      rfl
  | .member _ object _ => by
      rw [Expr.recast, object.recast_ofFile]
      rfl
  | .method _ object _ args => by
      rw [Expr.recast, object.recast_ofFile, exprsRecast_ofFile args]
      rfl
  | .index _ object subscript => by
      rw [Expr.recast, object.recast_ofFile, subscript.recast_ofFile]
      rfl
  | .lambda _ params body => by
      rw [Expr.recast, params_recast_ofFile, body.recast_ofFile]
      rfl

theorem exprsRecast_ofFile : ∀ es : List Expr, exprsRecast (.ofFile f) es = es
  | [] => rfl
  | e :: es => by rw [exprsRecast, e.recast_ofFile, exprsRecast_ofFile es]

theorem Block.recast_ofFile : ∀ b : Block, b.recast (.ofFile f) = b
  | .mk _ statements => by
      rw [Block.recast, stmtsRecast_ofFile statements]
      rfl

theorem stmtsRecast_ofFile : ∀ ss : List Stmt, stmtsRecast (.ofFile f) ss = ss
  | [] => rfl
  | s :: ss => by rw [stmtsRecast, s.recast_ofFile, stmtsRecast_ofFile ss]

theorem Branch.recast_ofFile : ∀ b : Branch, b.recast (.ofFile f) = b
  | .mk _ condition body => by
      rw [Branch.recast, condition.recast_ofFile, body.recast_ofFile]
      rfl

theorem branchesRecast_ofFile : ∀ bs : List Branch, branchesRecast (.ofFile f) bs = bs
  | [] => rfl
  | b :: bs => by rw [branchesRecast, b.recast_ofFile, branchesRecast_ofFile bs]

theorem Func.recast_ofFile : ∀ fn : Func, fn.recast (.ofFile f) = fn
  | .mk _ _ params _ body => by
      rw [Func.recast, params_recast_ofFile, body.recast_ofFile]
      rfl

theorem funcsRecast_ofFile : ∀ fs : List Func, funcsRecast (.ofFile f) fs = fs
  | [] => rfl
  | fn :: fs => by rw [funcsRecast, fn.recast_ofFile, funcsRecast_ofFile fs]

theorem Stmt.recast_ofFile : ∀ s : Stmt, s.recast (.ofFile f) = s
  | .expr _ _ value => by
      rw [Stmt.recast, value.recast_ofFile]
      rfl
  | .assign _ _ value => by
      rw [Stmt.recast, value.recast_ofFile]
      rfl
  | .store _ _ object subscript value => by
      rw [Stmt.recast, object.recast_ofFile, subscript.recast_ofFile, value.recast_ofFile]
      rfl
  | .choose _ branches none => by
      rw [Stmt.recast, branchesRecast_ofFile branches]
      rfl
  | .choose _ branches (some b) => by
      rw [Stmt.recast, branchesRecast_ofFile branches, b.recast_ofFile]
      rfl
  | .repeatWhile _ condition body => by
      rw [Stmt.recast, condition.recast_ofFile, body.recast_ofFile]
      rfl
  | .forEach _ _ source body => by
      rw [Stmt.recast, source.recast_ofFile, body.recast_ofFile]
      rfl
  | .declare fn => by rw [Stmt.recast, fn.recast_ofFile]
  | .classDef _ _ fields methods => by
      rw [Stmt.recast, params_recast_ofFile, funcsRecast_ofFile methods]
      rfl
  | .giveBack _ none | .leave _ | .skip _ => rfl
  | .giveBack _ (some e) => by
      rw [Stmt.recast, e.recast_ofFile]
      rfl

end

theorem Value.recast_ofFile : Value.recast (.ofFile f) = id := by
  funext v
  induction v with
  | some v id ih =>
      rw [Value.recast, ih]
      rfl
  | function c id =>
      have hclosure : c.recast (.ofFile f) = c := by
        rw [Closure.recast, Block.recast_ofFile]
        rfl
      rw [Value.recast, hclosure]
      rfl
  | classOf c id =>
      have hclass : c.recast (.ofFile f) = c := by
        rw [ClassDef.recast, funext (Func.recast_ofFile f), List.map_id']
      rw [Value.recast, hclass]
      rfl
  | _ => rfl

theorem HostValue.recast_ofFile : (h : HostValue) → h.recast (.ofFile f) = h
  | .object v => by
      rw [HostValue.recast, Value.recast_ofFile]
      rfl
  | .slice item items => by rw [HostValue.recast, hostValuesRecast_ofFile items]
  | .array item items => by rw [HostValue.recast, hostValuesRecast_ofFile items]
  | .named name inner => by rw [HostValue.recast, inner.recast_ofFile]
  | .nil | .nilPointer _ | .bool _ | .int _ _ | .float64 _ | .float32 _ | .string _
  | .pointer _ | .other _ | .function _ => rfl
where
  hostValuesRecast_ofFile : (hs : List HostValue) →
      HostValue.recast.hostValuesRecast (.ofFile f) hs = hs
    | [] => rfl
    | h :: hs => by
      rw [HostValue.recast.hostValuesRecast, h.recast_ofFile, hostValuesRecast_ofFile hs]

theorem Request.recast_ofFile : Request.recast (.ofFile f) = id := by
  funext r
  cases r with
  | file r => rfl
  | call g args =>
      rw [Request.recast, funext (HostValue.recast_ofFile f), List.map_id']
      rfl

end

/-- Whether two stores hold the same but for the number of steps, what the
surroundings are like, and names of files in what is known of threads. -/
structure Store.Agrees (f : String → String) (s s' : Store) : Prop where
  objects : { s with threads := #[], steps := 0, outside := .bare } =
    { s' with threads := #[], steps := 0, outside := .bare }
  threads : s.threads.mapIdx (ThreadCell.recast (.ofFile f)) =
    s'.threads.mapIdx (ThreadCell.recast (.ofFile f))

variable {f : String → String}

theorem Store.recast_ofFile (s : Store) (extra : Nat) :
    s.recast ((Guise.ofFile f).veil extra) =
      { s with
        threads := s.threads.mapIdx (ThreadCell.recast (.ofFile f)), steps := s.steps + extra } :=
  s.recast_of_plain (funext (Func.recast_ofFile f)) (Value.recast_ofFile f)
    (Request.recast_ofFile f) rfl

theorem Store.agrees_of_recast {s s' : Store} {extra extra' : Nat}
    (h : s.recast ((Guise.ofFile f).veil extra) = s'.recast ((Guise.ofFile f).veil extra')) :
    s.Agrees f s' := by
  rw [recast_ofFile, recast_ofFile] at h
  refine ⟨?_, congrArg Store.threads h⟩
  exact congrArg (fun u : Store => { u with threads := #[], steps := 0, outside := .bare }) h

/-- Whether two reports are the same but for names of files. -/
structure Failure.Agrees (f : String → String) (a b : Failure) : Prop where
  fault : a.fault = b.fault
  position : a.position = b.position
  trace : a.trace.map (CallSite.recast (.ofFile f)) = b.trace.map (CallSite.recast (.ofFile f))
  thread : a.thread = b.thread

theorem Failure.Agrees.symm {a b : Failure} (h : a.Agrees f b) : b.Agrees f a :=
  ⟨h.fault.symm, h.position.symm, h.trace.symm, h.thread.symm⟩

theorem Fault.recast_ofFile (fault : Fault) : fault.recast (.ofFile f) = fault := by
  cases fault <;> rfl

theorem Failure.agrees_of_recast {a b : Failure} (h : a.recast (.ofFile f) = b.recast (.ofFile f)) :
    a.Agrees f b := by
  have hfault : (a.recast (.ofFile f)).fault = (b.recast (.ofFile f)).fault :=
    congrArg Failure.fault h
  have hposition : (a.recast (.ofFile f)).position = (b.recast (.ofFile f)).position :=
    congrArg Failure.position h
  have hthread : (a.recast (.ofFile f)).thread = (b.recast (.ofFile f)).thread :=
    congrArg Failure.thread h
  rw [Failure.recast, Failure.recast, Fault.recast_ofFile, Fault.recast_ofFile] at hfault
  exact ⟨hfault, hposition, congrArg Failure.trace h, hthread⟩

theorem Outcome.recast_ofFile_value {o : Outcome} {v : Value}
    (h : o.recast (.ofFile f) = .value v) : o = .value v := by
  cases o with
  | value x =>
      rw [Outcome.recast, Value.recast_ofFile] at h
      exact h
  | _ => cases h

theorem Outcome.recast_ofFile_failed {o : Outcome} {a : Failure}
    (h : o.recast (.ofFile f) = .failed (a.recast (.ofFile f))) :
    ∃ b, o = .failed b ∧ b.Agrees f a := by
  cases o with
  | failed b => exact ⟨b, rfl, Failure.agrees_of_recast (Outcome.failed.inj h)⟩
  | _ => cases h

theorem Control.recast_ofFile_stmt {c : Control} {s : Stmt} {env : Environment}
    (h : c.recast (.ofFile f) = .stmt s env) : c = .stmt s env := by
  cases c with
  | stmt s' env' =>
      rw [Control.recast, Stmt.recast_ofFile] at h
      exact h
  | _ => cases h

/-- The name of a file, one name being replaced by another. -/
def renamed (old new file : String) : String := if file = old then new else file

@[simp] theorem renamed_old (old new : String) : renamed old new old = new := if_pos rfl

@[simp] theorem renamed_new (old new : String) : renamed old new new = new := by
  simp [renamed]

theorem stmts_recast_ofFile (ss : List Stmt) : ss.map (Stmt.recast (.ofFile f)) = ss := by
  rw [funext (Stmt.recast_ofFile f), List.map_id']

namespace World

variable (limits : Limits) (w : World)

theorem knows_ofFile (h : Host) (x : Value) : (Guise.ofFile f).Knows h x := by
  have hsame : HostValue.recast (.ofFile f) = id := funext (HostValue.recast_ofFile f)
  have hmember : HostMember.recast (.ofFile f) = id := by
    funext m
    cases m with
    | method _ => rfl
    | field v => exact congrArg HostMember.field (v.recast_ofFile f)
  cases x with
  | hostFunction g name bound id =>
      intro args
      rw [hsame, List.map_id]
      change h.call g args = _
      cases h.call g args with
      | error reason => rfl
      | ok hs => exact congrArg Except.ok (List.map_id hs).symm
  | host p id =>
      intro name
      rw [hmember, Option.map_id]
      rfl
  | _ => trivial

/-- Where nothing of the host stays what it is, a value that does is nothing of the host. -/
theorem knows_of_foreign {g : Guise} (hforeign : ∀ n, g.foreign n ≠ n) {v : Value}
    (h : v.recast g = v.recast (.ofFile f)) (host : Host) : g.Knows host v := by
  cases v with
  | hostFunction k name bound id =>
      have hnumber := congrArg HostFunction.number (Value.hostFunction.inj h).1
      exact absurd hnumber (hforeign k.number)
  | host p id =>
      have hnumber := congrArg HostPointer.number (Value.host.inj h).1
      exact absurd hnumber (hforeign p.number)
  | _ => trivial

/-- Every run fits names of files. -/
theorem fits_ofFile : w.Fits (.ofFile f) .ground 0 limits := by
  have hfits : ∀ t : Task, t.Fits (.ofFile f) .ground 0 limits w.store := by
    intro t
    refine ⟨.inl rfl, .inl ⟨rfl, rfl⟩, .inl rfl, fun _ _ _ _ => rfl, nofun, ?_, ?_⟩
    · exact fun o _ failure _ p => Task.located_recast_of_known 0 w.store (fun _ => rfl) failure p
    · exact fun x _ => knows_ofFile w.store.outside.host x
  exact ⟨hfits w.main, fun entry _ => hfits entry.2⟩

end World

end Scriptlet
