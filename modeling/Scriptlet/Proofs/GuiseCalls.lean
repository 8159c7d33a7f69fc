/-
What threads ask, call and wait for in another guise.  A thread that is recast
first and then asks or calls is where it is when it asks or calls first and is
recast then, be it that further frames lie below its own: nothing looks at
places, spellings, hints or file names, or at how far down the frames reach.
-/
import Scriptlet.Proofs.GuiseHost

namespace Scriptlet

/-- A thread and its store recast. -/
def Guise.moved (g : Guise) (below : Footing) (extra : Nat) (r : Task × Store) : Task × Store :=
  (r.1.recast g below, r.2.recast (g.veil extra))

namespace Task

section

variable (g : Guise) (below : Footing) (extra : Nat) (t : Task) (s : Store)

theorem askTruth_recast (x : Value) :
    (t.recast g below).askTruth (x.recast g) = (t.askTruth x).recast g below := by
  cases x <;> rfl

theorem comparable_recast (a b : Value) :
    comparable (s.recast (g.veil extra)) (a.recast g) (b.recast g) = comparable s a b := by
  have hclass : ∀ id : Nat, ((s.recast (g.veil extra)).instances[id]?.map Instance.classId) =
      s.instances[id]?.map Instance.classId := by
    intro id
    simp only [Store.recast, Array.getElem?_map, Option.map_map]
    rfl
  unfold comparable
  cases a with
  | «instance» i =>
      cases b with
      | «instance» j =>
          change (_ == _) = (_ == _)
          rw [hclass, hclass]
      | _ => rfl
  | _ => cases b <;> rfl

theorem askEqual_recast (a b : Value) :
    (t.recast g below).askEqual (s.recast (g.veil extra)) (a.recast g) (b.recast g) =
      (t.askEqual s a b).recast g below := by
  unfold askEqual
  rw [comparable_recast]
  split <;> rfl

theorem applying_recast (callee : Value) (args : List Value) (site : Position) :
    (t.recast g below).applying (s.recast (g.veil extra)) (callee.recast g)
      (args.map (Value.recast g)) (g.place site) =
        (t.applying s callee args site).recast g below := by
  have hname := Store.calleeName_recast (g.veil extra) s callee
  change (s.recast (g.veil extra)).calleeName (callee.recast g) = _ at hname
  simp only [applying, hname]
  rfl

theorem comparePairs_recast (pairs : List (Value × Value)) :
    (t.recast g below).comparePairs (s.recast (g.veil extra))
      (pairs.map fun pair => (pair.1.recast g, pair.2.recast g)) =
      (t.comparePairs s pairs).recast g below := by
  cases pairs with
  | nil => rfl
  | cons pair rest => exact askEqual_recast g below extra (t.pushed (.pairs rest)) s pair.1 pair.2

theorem seek_recast (target : Value) (index : Nat) (onlyWhether : Bool) (values : List Value) :
    (t.recast g below).seek (s.recast (g.veil extra)) (target.recast g) index onlyWhether
      (values.map (Value.recast g)) =
        (t.seek s target index onlyWhether values).recast g below := by
  cases values with
  | nil => cases onlyWhether <;> rfl
  | cons x rest =>
      exact askEqual_recast g below extra (t.pushed (.seeking target index onlyWhether rest)) s
        x target

theorem chooseFrom_recast (env : Environment) (otherwise : Option Block) (branches : List Branch) :
    (t.recast g below).chooseFrom env (otherwise.map (Block.recast g))
        (branches.map (Branch.recast g)) =
      (t.chooseFrom env otherwise branches).recast g below := by
  cases branches with
  | nil => cases otherwise <;> rfl
  | cons branch rest =>
      cases branch
      rfl

theorem beginBlock_recast (env : Environment) (statements : List Stmt) :
    (t.recast g below).beginBlock env (statements.map (Stmt.recast g)) =
      (t.beginBlock env statements).recast g below := by
  cases statements <;> rfl

theorem beginProgram_recast (env : Environment) (statements : List Stmt) :
    (t.recast g below).beginProgram env (statements.map (Stmt.recast g)) =
      (t.beginProgram env statements).recast g below := by
  cases statements <;> rfl

end

section

variable {g : Guise} (hnowhere : g.place .nowhere = .nowhere) (below : Footing) (extra : Nat)
  (t : Task) (s : Store)

include hnowhere

theorem failing_recast (fault : Fault) :
    (t.recast g below).failing (fault.recast g) = (t.failing fault).recast g below := by
  simp only [failing, doing, recast, Control.recast, Outcome.recast, Failure.recast,
    Failure.ofFault, hnowhere, List.map_nil]

theorem answered_recast (a : Answer) :
    (t.recast g below).answered (Answer.recast (g.veil extra) a) =
      g.moved below extra (t.answered a) := by
  obtain ⟨answer, s⟩ := a
  cases answer with
  | ok x => rfl
  | error fault => exact congrArg (·, s.recast (g.veil extra)) (failing_recast hnowhere below t _)

theorem printing_recast (done : List Text) (values : List Value) :
    (t.recast g below).printing (s.recast (g.veil extra)) done (values.map (Value.recast g)) =
      g.moved below extra (t.printing s done values) := by
  induction values generalizing done with
  | nil =>
      exact (congrArg (t.recast g below).answered
        (Store.printText_recast (g.veil extra) s _)).trans
          (answered_recast hnowhere below extra t _)
  | cons x rest ih =>
      cases x with
      | str text id => exact ih _
      | _ => rfl

theorem listText_recast (done : List Text) (values : List Value) :
    (t.recast g below).listText (s.recast (g.veil extra)) done (values.map (Value.recast g)) =
      g.moved below extra (t.listText s done values) := by
  cases values with
  | nil => exact answered_recast hnowhere below extra t (s.giveText _)
  | cons x rest => rfl

omit hnowhere in
theorem sleeping_recast (ms : Float) :
    (t.recast g below).sleeping (s.recast (g.veil extra)) ms =
      (t.sleeping s ms).recast g below := by
  unfold sleeping
  split <;> rfl

theorem sleepOn_recast (wakeUp : Nat) :
    (t.recast g below).sleepOn (s.recast (g.veil extra)) wakeUp =
      (t.sleepOn s wakeUp).recast g below := by
  have hcalledOff : (s.recast (g.veil extra)).outside.calledOff = s.outside.calledOff := rfl
  have helapsed : (s.recast (g.veil extra)).outside.elapsed = s.outside.elapsed := rfl
  simp only [sleepOn, hcalledOff, helapsed]
  cases s.outside.calledOff with
  | some reason => exact failing_recast hnowhere below t (.cancelled reason)
  | none =>
      dsimp only
      split <;> rfl

omit hnowhere in
theorem mutexes_recast (change : MutexCell → MutexCell) {change' : MutexCell → MutexCell}
    (h : ∀ c : MutexCell, change' (c.recast g) = (change c).recast g) (id : Nat) :
    ({ s.recast (g.veil extra) with
        mutexes := (s.recast (g.veil extra)).mutexes.modify id change' } : Store) =
      Store.recast (g.veil extra) { s with mutexes := s.mutexes.modify id change } := by
  simp only [Store.recast, Guise.veil]
  rw [modify_map h]

theorem useMutex_recast (m : MutexMethod) (id : Nat) (cell : MutexCell) (arg : Option Value) :
    (t.recast g below).useMutex (s.recast (g.veil extra)) m id (cell.recast g)
      (arg.map (Value.recast g)) = g.moved below extra (t.useMutex s m id cell arg) := by
  cases m with
  | get => rfl
  | set => exact congrArg (Prod.mk _) (mutexes_recast extra s _ (fun c => by cases arg <;> rfl) id)
  | update =>
      refine Prod.ext ?_
        (mutexes_recast extra s (fun c => { c with locked := true }) (fun c => rfl) id)
      have hcall := applying_recast g below extra (t.pushed (.updating id)) s (arg.getD .null)
        [cell.value] .nowhere
      rw [hnowhere] at hcall
      rw [useMutex, useMutex, Guise.moved, ← hcall]
      cases arg <;> rfl

end

section

variable (g : Guise) (below : Footing) (extra : Nat) (t : Task) (s : Store)

theorem thread_recast (id : Nat) :
    (s.recast (g.veil extra)).threads[id]? = s.threads[id]?.map (ThreadCell.recast g id) := by
  simp only [Store.recast, Guise.veil, Array.getElem?_mapIdx]

theorem joined?_recast (ids : List Nat) :
    joined? (s.recast (g.veil extra)) ids =
      (joined? s ids).map fun r =>
        match r with
        | .ok values => .ok (values.map (Value.recast g))
        | .error f => .error (f.recast g) := by
  induction ids with
  | nil => rfl
  | cons id rest ih =>
      rw [joined?, joined?, ih, thread_recast]
      cases s.threads[id]? with
      | none => rfl
      | some cell =>
          cases cell with
          | ended result => cases result <;> rcases joined? s rest with _ | _ | _ <;> rfl
          | _ => rfl

theorem joinThread_recast (id : Nat) :
    (t.recast g below).joinThread (s.recast (g.veil extra)) id =
      (t.joinThread s id).recast g below := by
  rw [joinThread, joinThread, thread_recast]
  cases s.threads[id]? with
  | none => rfl
  | some cell =>
      cases cell with
      | ended result => cases result <;> rfl
      | _ => rfl

end

section

variable {g : Guise} (hnowhere : g.place .nowhere = .nowhere) (below : Footing) (extra : Nat)
  (t : Task) (s : Store)

theorem listPairs_recast (g : Guise) (extra : Nat) (s : Store) (a b : Nat) :
    listPairs (s.recast (g.veil extra)) a b =
      (listPairs s a b).map id fun pairs => pairs.map fun pair =>
        (pair.1.recast g, pair.2.recast g) := by
  have hitems : ∀ id,
      (s.recast (g.veil extra)).listItems id = (s.listItems id).map (Value.recast g) :=
    Store.listItems_recast (g.veil extra) s
  simp only [listPairs, hitems, Array.size_map, Array.toList_map]
  split
  · rfl
  · split
    · rfl
    · simp only [Sum.map_inr, Sum.inr.injEq, List.zip_map]
      rfl

include hnowhere

theorem joinAll_recast (ids : List Nat) :
    (t.recast g below).joinAll (s.recast (g.veil extra)) ids =
      g.moved below extra (t.joinAll s ids) := by
  unfold joinAll
  rw [joined?_recast]
  cases joined? s ids with
  | none => rfl
  | some r =>
      cases r with
      | error f => rfl
      | ok values =>
          have hlist := Store.giveList_recast (g.veil extra) s values.toArray
          rw [List.map_toArray] at hlist
          exact (congrArg (t.recast g below).answered hlist).trans
            (answered_recast hnowhere below extra t (s.giveList values.toArray))

omit hnowhere in
theorem spawned_recast (x : Value) :
    (s.recast (g.veil extra)).newThread (x.recast g) (t.recast g below).file =
      ((s.newThread x t.file).1, (s.newThread x t.file).2.recast (g.veil extra)) := by
  simp [Store.newThread, Store.recast, Outside.recast, Guise.veil, recast, ThreadCell.recast]

theorem refused_recast (method : String) (args : List Value) :
    (t.recast g below).answered ((s.recast (g.veil extra)).refuseReceiver method
      (args.map (Value.recast g))) =
        g.moved below extra (t.answered (s.refuseReceiver method args)) :=
  (congrArg (t.recast g below).answered
    (Store.refuseReceiver_recast (g.veil extra) s method args)).trans
    (answered_recast hnowhere below extra t _)

theorem callList_recast (m : ListMethod) (args : List Value) :
    (t.recast g below).callBack (s.recast (g.veil extra)) (.list m)
      (args.map (Value.recast g)) = g.moved below extra (t.callBack s (.list m) args) := by
  have hitems : ∀ id, ((s.recast (g.veil extra)).listItems id).toList =
      (s.listItems id).toList.map (Value.recast g) := by
    intro id
    exact (congrArg Array.toList (Store.listItems_recast (g.veil extra) s id)).trans
      Array.toList_map
  have hrefused := refused_recast hnowhere below extra t s (Builtin.list m).name
  have hseek : ∀ (id : Nat) (target : Value) (onlyWhether : Bool),
      (t.recast g below).seek (s.recast (g.veil extra)) (target.recast g) 0 onlyWhether
        ((s.recast (g.veil extra)).listItems id).toList =
        (t.seek s target 0 onlyWhether (s.listItems id).toList).recast g below := by
    intro id target onlyWhether
    rw [hitems]
    exact seek_recast g below extra t s target 0 onlyWhether _
  -- Each takes a list first and so many arguments; anything else is refused in the same words.
  cases m with
  | contains | find =>
      rcases args with _ | ⟨a, _ | ⟨b, _ | ⟨c, rest⟩⟩⟩
      · exact hrefused []
      · cases a with
        | list id => exact hrefused [.list id]
        | _ => exact hrefused [_]
      · cases a with
        | list id => exact congrArg (·, s.recast (g.veil extra)) (hseek id b _)
        | _ => exact hrefused [_, b]
      · cases a with
        | list id => exact hrefused [.list id]
        | _ => exact hrefused [_]
  | display =>
      rcases args with _ | ⟨a, _ | ⟨b, rest⟩⟩
      · exact hrefused []
      · cases a with
        | list id =>
            refine Eq.trans ?_ (listText_recast hnowhere below extra t s [] (s.listItems id).toList)
            rw [← hitems]
            rfl
        | _ => exact hrefused [_]
      · cases a with
        | list id => exact hrefused [.list id]
        | _ => exact hrefused [_]
  | equal =>
      rcases args with _ | ⟨a, _ | ⟨b, _ | ⟨c, rest⟩⟩⟩
      · exact hrefused []
      · cases a with
        | list id => exact hrefused [.list id]
        | _ => exact hrefused [_]
      · cases a with
        | list i =>
            cases b with
            | list j =>
                have hpairs := listPairs_recast g extra s i j
                simp only [List.map_cons, List.map_nil, Value.recast, callBack, hpairs]
                cases listPairs s i j with
                | inl answer => rfl
                | inr pairs =>
                    exact congrArg (·, s.recast (g.veil extra))
                      (comparePairs_recast g below extra t s pairs)
            | _ => rfl
        | _ => exact hrefused [_, b]
      · cases a with
        | list i => cases b <;> exact hrefused [.list i]
        | _ => exact hrefused [_]
  | _ => exact hrefused args

theorem callOption_recast (m : OptionMethod) (args : List Value) :
    (t.recast g below).callBack (s.recast (g.veil extra)) (.option m)
      (args.map (Value.recast g)) = g.moved below extra (t.callBack s (.option m) args) := by
  have hrefused := refused_recast hnowhere below extra t s (Builtin.option m).name
  cases m with
  | equal =>
      rcases args with _ | ⟨a, _ | ⟨b, _ | ⟨c, rest⟩⟩⟩
      · exact hrefused []
      · cases a with
        | none => exact hrefused [.none]
        | some x id => exact hrefused [.some x id]
        | _ => exact hrefused [_]
      · cases a with
        | none => cases b <;> rfl
        | some x id =>
            cases b with
            | some y j =>
                exact congrArg (·, s.recast (g.veil extra)) (askEqual_recast g below extra t s x y)
            | _ => rfl
        | _ => exact hrefused [_, b]
      · cases a with
        | none => cases b <;> exact hrefused [.none]
        | some x i => cases b <;> exact hrefused [.some x i]
        | _ => exact hrefused [_]
  | display =>
      rcases args with _ | ⟨a, _ | ⟨b, rest⟩⟩
      · exact hrefused []
      · cases a with
        | none => exact answered_recast hnowhere below extra t (s.giveText "None")
        | some x id => rfl
        | _ => exact hrefused [_]
      · cases a with
        | none => exact hrefused [.none]
        | some x id => exact hrefused [.some x id]
        | _ => exact hrefused [_]
  | _ => exact hrefused args

theorem callMutex_recast (m : MutexMethod) (args : List Value) :
    (t.recast g below).callBack (s.recast (g.veil extra)) (.mutexOf m)
      (args.map (Value.recast g)) = g.moved below extra (t.callBack s (.mutexOf m) args) := by
  have hrefused := refused_recast hnowhere below extra t s (Builtin.mutexOf m).name
  cases args with
  | nil => exact hrefused []
  | cons a rest =>
      cases a with
      | mutex id =>
          have hcell : (s.recast (g.veil extra)).mutexes[id]? =
              s.mutexes[id]?.map (MutexCell.recast g) := Array.getElem?_map
          simp only [List.map_cons, Value.recast, callBack, hcell]
          cases s.mutexes[id]? with
          | none => rfl
          | some cell =>
              have huse := useMutex_recast hnowhere below extra t s m id cell rest.head?
              rw [← List.head?_map] at huse
              simp only [Option.map_some, huse]
              change (if cell.locked then _ else _) = _
              split <;> rfl
      | _ => exact hrefused (_ :: rest)

/-- What calls back or waits does so in every guise. -/
theorem callBack_recast (b : Builtin) (args : List Value) :
    (t.recast g below).callBack (s.recast (g.veil extra)) b (args.map (Value.recast g)) =
      g.moved below extra (t.callBack s b args) := by
  have hrefused := refused_recast hnowhere below extra t s b.name
  cases b with
  | print => exact printing_recast hnowhere below extra t s [] args
  | list m => exact callList_recast hnowhere below extra t s m args
  | option m => exact callOption_recast hnowhere below extra t s m args
  | mutexOf m => exact callMutex_recast hnowhere below extra t s m args
  | repr | len =>
      rcases args with _ | ⟨a, _ | ⟨b, rest⟩⟩
      · exact hrefused []
      · rfl
      · exact hrefused [a]
  | str =>
      rcases args with _ | ⟨a, _ | ⟨b, rest⟩⟩
      · exact hrefused []
      · cases a with
        | str text id => exact answered_recast hnowhere below extra t (s.giveText text)
        | _ => rfl
      · cases a with
        | str text id => exact hrefused [.str text id]
        | _ => exact hrefused [_]
  | spawn =>
      rcases args with _ | ⟨a, _ | ⟨b, rest⟩⟩
      · exact hrefused []
      · have hspawned := spawned_recast (g := g) below extra t s a
        simp only [List.map_cons, List.map_nil, callBack, hspawned]
        rfl
      · exact hrefused [a]
  | sleep =>
      rcases args with _ | ⟨a, _ | ⟨b, rest⟩⟩
      · exact hrefused []
      · cases a with
        | int n id =>
            exact congrArg (·, s.recast (g.veil extra))
              (sleeping_recast below extra t s n.toFloat)
        | float x id =>
            exact congrArg (·, s.recast (g.veil extra))
              (sleeping_recast below extra t s x)
        | _ =>
            exact (congrArg (t.recast g below).answered
              (Store.refuseType_recast (g.veil extra) s "sleep() duration" "a number" _)).trans
                (answered_recast hnowhere below extra t _)
      · cases a with
        | int n id => exact hrefused [.int n id]
        | float x id => exact hrefused [.float x id]
        | _ => exact hrefused [_]
  | assert =>
      rcases args with _ | ⟨a, _ | ⟨b, rest⟩⟩
      · exact hrefused []
      · exact congrArg (·, s.recast (g.veil extra))
          (askTruth_recast g below (t.pushed .assertTruth) a)
      · exact hrefused [a]
  | assertEq =>
      rcases args with _ | ⟨a, _ | ⟨b, _ | ⟨c, rest⟩⟩⟩
      · exact hrefused []
      · exact hrefused [a]
      · exact congrArg (·, s.recast (g.veil extra))
          (askEqual_recast g below extra (t.pushed (.assertEqual a b true)) s a b)
      · exact hrefused [a]
  | assertNe =>
      rcases args with _ | ⟨a, _ | ⟨b, _ | ⟨c, rest⟩⟩⟩
      · exact hrefused []
      · exact hrefused [a]
      · exact congrArg (·, s.recast (g.veil extra))
          (askEqual_recast g below extra (t.pushed (.assertEqual a b false)) s a b)
      · exact hrefused [a]
  | thread m =>
      cases m with
      | join =>
          rcases args with _ | ⟨a, _ | ⟨b, rest⟩⟩
          · exact hrefused []
          · cases a with
            | thread id =>
                exact congrArg (·, s.recast (g.veil extra)) (joinThread_recast g below extra t s id)
            | _ => exact hrefused [_]
          · cases a with
            | thread id => exact hrefused [.thread id]
            | _ => exact hrefused [_]
      | _ => exact hrefused args
  | pool m =>
      cases m with
      | spawn =>
          rcases args with _ | ⟨a, _ | ⟨b, _ | ⟨c, rest⟩⟩⟩
          · exact hrefused []
          · cases a with
            | pool id => exact hrefused [.pool id]
            | _ => exact hrefused [_]
          · cases a with
            | pool id =>
                have hspawned := spawned_recast (g := g) below extra t s b
                simp only [List.map_cons, List.map_nil, Value.recast, callBack, hspawned]
                rfl
            | _ => exact hrefused [_, b]
          · cases a with
            | pool id => exact hrefused [.pool id]
            | _ => exact hrefused [_]
      | join =>
          rcases args with _ | ⟨a, _ | ⟨b, rest⟩⟩
          · exact hrefused []
          · cases a with
            | pool id => rfl
            | _ => exact hrefused [_]
          · cases a with
            | pool id => exact hrefused [.pool id]
            | _ => exact hrefused [_]
      | _ => exact hrefused args
  | _ => exact hrefused args

end

section

variable {g : Guise} (below : Footing) (extra : Nat) (t : Task) (s : Store)

theorem zip_recast (g : Guise) (names : List String) (values : List Value) :
    names.zip (values.map (Value.recast g)) =
      (names.zip values).map fun entry => (entry.1, entry.2.recast g) :=
  List.zip_map_right

theorem setAll_recast (g : Guise) (names : List String) (values : List Value) :
    Bindings.empty.setAll (names.zip (values.map (Value.recast g))) =
      (Bindings.empty.setAll (names.zip values)).map (Value.recast g) := by
  rw [zip_recast]
  exact Bindings.setAll_map (Value.recast g) .empty _

theorem newFunction_recast (name : String) (f : Func) (env : Environment) :
    (s.recast (g.veil extra)).newFunction
      ⟨name, (f.recast g).params.map fun p => p.name.name, (f.recast g).body, env⟩ =
      ((s.newFunction ⟨name, f.params.map fun p => p.name.name, f.body, env⟩).1.recast g,
        (s.newFunction ⟨name, f.params.map fun p => p.name.name, f.body, env⟩).2.recast
          (g.veil extra)) := by
  rw [Func.params_recast]
  cases f
  rfl

theorem methodClosures_recast (c : ClassDef) (env : Environment) (methods : List Func)
    (before : List (String × Value)) (s : Store) :
    methodClosures (s.recast (g.veil extra)) (c.recast g) env
      (before.map fun entry => (entry.1, entry.2.recast g)) (methods.map (Func.recast g)) =
      ((methodClosures s c env before methods).1.map (fun entry => (entry.1, entry.2.recast g)),
        (methodClosures s c env before methods).2.recast (g.veil extra)) := by
  induction methods generalizing before s with
  | nil => simp only [List.map_nil, methodClosures, List.map_reverse]
  | cons f rest ih =>
      have hname : (f.recast g).ident.name = f.ident.name := by
        cases f
        rfl
      have hclass : (c.recast g).name = c.name := rfl
      simp only [List.map_cons, methodClosures, newFunction_recast, hname, hclass]
      exact ih ((_, _) :: before) _

theorem instantiate_recast (c : ClassDef) (classId : Nat) (args : List Value) (env : Environment) :
    instantiate (s.recast (g.veil extra)) (c.recast g) classId (args.map (Value.recast g)) env =
      ((instantiate s c classId args env).1.recast g,
        (instantiate s c classId args env).2.recast (g.veil extra)) := by
  have hmethods := methodClosures_recast (g := g) extra c env c.methods [] s
  have hfields := setAll_recast g c.fields args
  change methodClosures (s.recast (g.veil extra)) (c.recast g) env [] (c.recast g).methods = _
    at hmethods
  change Bindings.empty.setAll ((c.recast g).fields.zip _) = _ at hfields
  simp only [instantiate, hmethods, hfields, Bindings.setAll_map]
  simp [Store.newInstance, Store.recast, Guise.veil, Value.recast, Instance.recast]

end

section

variable {g : Guise} (hnowhere : g.place .nowhere = .nowhere) (below : Footing) (extra : Nat)
  (t : Task) (s : Store)

include hnowhere

theorem callHost_recast (f : HostFunction) (name : String) (bound : Bool) (args : List Value)
    (hknows : ∀ args : List HostValue,
      (s.outside.host.recast g).call (f.recast g) (args.map (HostValue.recast g)) =
        (s.outside.host.call f args).map fun hs => hs.map (HostValue.recast g)) :
    (t.recast g below).callHost (s.recast (g.veil extra)) (f.recast g) name bound
        (args.map (Value.recast g)) = g.moved below extra (t.callHost s f name bound args) := by
  have hcall : ∀ args : List Value,
      (f.recast g).call (s.recast (g.veil extra)) (args.map (Value.recast g)) =
        (f.call s args).map (g.veil extra).carried :=
    fun args => HostFunction.call_recast (g.veil extra) s f args hknows
  have hsignature : (f.recast g).signature = f.signature := rfl
  have hfailing : ∀ (s : Store) {fault : Fault}, fault.recast g = fault →
      ((t.recast g below).failing fault, s.recast (g.veil extra)) =
        g.moved below extra (t.failing fault, s) := by
    intro s fault hfault
    rw [Guise.moved, ← failing_recast hnowhere below t, hfault]
  have hempty : (args.map (Value.recast g)).isEmpty = args.isEmpty := by cases args <;> rfl
  have hargs : (if bound then (args.map (Value.recast g)).tail else args.map (Value.recast g)) =
      (if bound then args.tail else args).map (Value.recast g) := by
    cases bound
    · rfl
    · exact List.map_tail.symm
  simp only [callHost, hsignature, List.length_map, hempty, hargs, hcall]
  generalize (f.signature.arity.map fun n => if bound then n + 1 else n) = expected
  split
  · exact hfailing s (by rfl)
  · split
    · exact hfailing s (by rfl)
    · rcases f.call s (if bound then args.tail else args) with _ | ⟨reason | x, s'⟩
      · rfl
      · exact hfailing s' (by rfl)
      · rfl

/-- What is called does in every guise the same, if the function that is called
keeps its body, or the host answers in that guise. -/
theorem call_recast (callee : Value) (args : List Value)
    (hscope : below.scope.getD [] = [])
    (hbody : ∀ f id, callee = .function f id → g.body f.body (f.body.recast g) = f.body.recast g)
    (hknows : g.Knows s.outside.host callee) :
    (t.recast g below).call (s.recast (g.veil extra)) (callee.recast g)
      (args.map (Value.recast g)) = g.moved below extra (t.call s callee args) := by
  have hfailing : ∀ {fault : Fault}, fault.recast g = fault →
      ((t.recast g below).failing fault, s.recast (g.veil extra)) =
        g.moved below extra (t.failing fault, s) := by
    intro fault hfault
    rw [Guise.moved, ← failing_recast hnowhere below t, hfault]
  have hnotCallable : ∀ x : Value, (fault : Fault) → fault = .notCallable (s.typeName x) →
      ((t.recast g below).failing (.notCallable ((s.recast (g.veil extra)).typeName (x.recast g))),
        s.recast (g.veil extra)) = g.moved below extra (t.failing fault, s) := by
    rintro x fault rfl
    have hname : (s.recast (g.veil extra)).typeName (x.recast g) = s.typeName x :=
      Store.typeName_recast (g.veil extra) s x
    rw [hname]
    exact hfailing (by rfl)
  cases callee with
  | function f id =>
      simp only [Value.recast, call, List.length_map]
      change (if args.length ≠ f.params.length then _ else _) = _
      split
      · exact hfailing (by rfl)
      · have hextend := Scopes.extend_map (Value.recast g) s.scopes f.env
          (Bindings.empty.setAll (f.params.zip args))
        rw [← setAll_recast] at hextend
        have hscopes : (s.recast (g.veil extra)).scopes = s.scopes.map (Value.recast g) := rfl
        simp only [Closure.recast, hscopes, hextend, hbody f id rfl]
        rfl
  | builtin b =>
      simp only [Value.recast, call, List.length_map]
      split
      · exact hfailing (by rfl)
      · split
        · exact callBack_recast hnowhere below extra t s b args
        · exact (congrArg (t.recast g below).answered
            (Builtin.answer_recast (g.veil extra) s b args)).trans
            (answered_recast hnowhere below extra t _)
  | hostFunction f name bound id =>
      exact callHost_recast hnowhere below extra t s f name bound args hknows
  | classOf c id =>
      have henv : (t.recast g below).scope.getD [] = t.scope.getD [] := by
        simp only [recast]
        cases t.scope with
        | none => exact hscope
        | some env => rfl
      simp only [Value.recast, call, List.length_map]
      change (if args.length ≠ c.fields.length then _ else _) = _
      split
      · exact hfailing (by rfl)
      · rw [instantiate_recast, henv]
        rfl
  | «instance» id =>
      have hfield : (s.recast (g.veil extra)).field? id "__call__" =
          (s.field? id "__call__").map (Value.recast g) :=
        Store.field?_recast (g.veil extra) s id "__call__"
      simp only [Value.recast, call, hfield]
      cases s.field? id "__call__" with
      | none => exact hnotCallable (.instance id) _ rfl
      | some f => rfl
  | _ => exact hnotCallable _ _ rfl

end

end Task

end Scriptlet
