/-
Runs in another guise.  What a thread does and a guise that all threads fit may be
exchanged, but for the number of a thread in the report it left behind, which nothing
reads.  Two runs that look the same in their guises, and meet the same events in
them, therefore go on looking the same.
-/
import Scriptlet.Proofs.GuiseSteps

namespace Scriptlet

/-- What is known of a thread with a number, the report of it saying which
thread it is of. -/
def ThreadCell.signed (id : Nat) : ThreadCell → ThreadCell
  | .ended (.error f) => .ended (.error { f with thread := some id })
  | cell => cell

/-- A store whose reports of threads say which threads they are of. -/
def Store.signed (s : Store) : Store :=
  { s with threads := s.threads.mapIdx ThreadCell.signed }

/-- A run whose reports of threads say which threads they are of. -/
def World.signed (w : World) : World := { w with store := w.store.signed }

theorem ThreadCell.signed_recast (g : Guise) (id : Nat) (cell : ThreadCell) :
    (cell.recast g id).signed id = cell.recast g id := by
  cases cell with
  | ended result => cases result <;> rfl
  | _ => rfl

theorem Store.signed_recast (g : Guise) (extra : Nat) (s : Store) :
    (s.recast (g.veil extra)).signed = s.recast (g.veil extra) := by
  simp only [signed, recast, Guise.veil, Array.mapIdx_mapIdx, Function.comp_def,
    ThreadCell.signed_recast]

theorem Store.signed_setThread (s : Store) (id : Nat) (cell : ThreadCell) :
    (s.setThread id cell).signed = s.signed.setThread id (cell.signed id) := by
  have hcells : (s.threads.modify id fun _ => cell).mapIdx ThreadCell.signed =
      (s.threads.mapIdx ThreadCell.signed).modify id fun _ => cell.signed id := by
    apply Array.ext_getElem?
    intro j
    simp only [Array.getElem?_modify, Array.getElem?_mapIdx]
    split
    · rename_i hj
      subst hj
      cases s.threads[id]? <;> rfl
    · rfl
  simp only [signed, setThread, hcells]

theorem Store.firstGlobals_recast (g : Guise) :
    firstGlobals.map (Value.recast g) = firstGlobals := by
  have hglobals : (Builtin.globals.map fun entry => (entry.1, Value.builtin entry.2)).map
      (fun entry => (entry.1, entry.2.recast g)) =
      Builtin.globals.map fun entry => (entry.1, Value.builtin entry.2) := List.map_map
  rw [firstGlobals, ← Bindings.setAll_map, List.map_append, hglobals]
  rfl

/-- Before a script runs there is nothing that a guise changes. -/
theorem Store.initial_recast (g : Guise) (hhost : Host.bare.recast g = .bare) :
    initial.recast (g.veil 0) = initial := by
  have hframes : (Scopes.empty : Scopes Value).frames.map (Bindings.map (Value.recast g)) = #[] :=
    Array.map_empty
  have houtside : Outside.bare.recast g = .bare :=
    congrArg (fun h => { Outside.bare with host := h }) hhost
  simp only [recast, initial, renewed, bare, Guise.veil, Scopes.map, firstGlobals_recast, hframes,
    houtside, Array.map_empty, Array.mapIdx_empty]
  rfl

theorem Task.result?_recast (g : Guise) (below : Footing) (t : Task) (hbelow : below.frames = []) :
    (t.recast g below).result? = t.result?.map (Outcome.recast g) := by
  obtain ⟨control, frames, scope, depth, calls, file⟩ := t
  obtain ⟨belowFrames, belowDepth, belowScope⟩ := below
  obtain rfl : belowFrames = [] := hbelow
  cases control <;> cases frames <;> rfl

namespace World

section

variable (g : Guise) (below : Footing) (extra : Nat) (w : World)

theorem doing_recast (c : Control) :
    (w.doing c).recast g below extra = (w.recast g below extra).doing (c.recast g) := rfl

theorem resultOf_recast (id : Nat) (o : Outcome) :
    (ThreadCell.ended (resultOf (o.recast g))).signed id =
      ThreadCell.recast g id (.ended (resultOf o)) := by
  cases o <;> rfl

/-- The thread whose turn it is does in every guise the same. -/
theorem advance_recast (limits : Limits) (hnowhere : g.place .nowhere = .nowhere) (id : Nat)
    (s : Store) {threads : List (Nat × Task)}
    (hfits : ∀ entry ∈ threads, entry.2.Fits g .ground extra limits s) :
    ((advance limits id (s.recast (g.veil extra))
        (threads.map fun entry => (entry.1, entry.2.recast g .ground))).1,
      (advance limits id (s.recast (g.veil extra))
        (threads.map fun entry => (entry.1, entry.2.recast g .ground))).2.signed) =
      ((advance limits id s threads).1.map fun entry => (entry.1, entry.2.recast g .ground),
        (advance limits id s threads).2.recast (g.veil extra)) := by
  induction threads with
  | nil => simp only [List.map_nil, advance, Store.signed_recast]
  | cons entry rest ih =>
      obtain ⟨n, t⟩ := entry
      obtain ⟨ht, hrest⟩ := List.forall_mem_cons.mp hfits
      simp only [List.map_cons, advance]
      split
      · rw [Task.result?_recast g .ground t rfl]
        cases t.result? with
        | some o =>
            simp only [Option.map_some, Store.signed_setThread, Store.signed_recast,
              resultOf_recast, Task.setThread_recast]
        | none =>
            simp only [Option.map_none, Task.step_recast ht hnowhere rfl, Guise.moved,
              Store.signed_recast, List.map_cons]
      · obtain ⟨hthreads, hstore⟩ := Prod.mk.inj (ih hrest)
        simp only [hthreads, hstore, List.map_cons]

end

/-- Whether a guise leaves alone what runs rest on: where nothing is known it
stays so, and names below are looked up globally. -/
structure Sits (g : Guise) (below : Footing) : Prop where
  nowhere : g.place .nowhere = .nowhere
  scope : below.scope.getD [] = []

/-- Whether all threads of a run fit a guise. -/
structure Fits (g : Guise) (below : Footing) (extra : Nat) (limits : Limits)
    (w : World) : Prop where
  main : w.main.Fits g below extra limits w.store
  threads : ∀ entry ∈ w.threads, entry.2.Fits g .ground extra limits w.store

section

variable {g : Guise} {below : Footing} {extra : Nat} {limits : Limits} {w : World}

/-- What a thread does and a guise that all threads fit may be exchanged. -/
theorem act_recast (hsits : Sits g below) (h : w.Fits g below extra limits)
    (actor : Option Nat) :
    ((w.recast g below extra).act limits actor).signed =
      (w.act limits actor).recast g below extra := by
  obtain ⟨hnowhere, hscope⟩ := hsits
  obtain ⟨s, main, threads, age⟩ := w
  cases actor with
  | none =>
      simp only [recast, act, Task.step_recast h.main hnowhere hscope, Guise.moved, signed,
        Store.signed_recast]
  | some id =>
      have hadvance := advance_recast g extra limits hnowhere id s h.threads
      obtain ⟨hthreads, hstore⟩ := Prod.mk.inj hadvance
      have hgoes : signed ⟨(advance limits id (s.recast (g.veil extra))
            (threads.map fun entry => (entry.1, entry.2.recast g .ground))).2,
          main.recast g below, (advance limits id (s.recast (g.veil extra))
            (threads.map fun entry => (entry.1, entry.2.recast g .ground))).1, 0⟩ =
          recast g below extra
            ⟨(advance limits id s threads).2, main, (advance limits id s threads).1, age⟩ := by
        simp only [signed, recast, hthreads, hstore]
      simp only [recast, act, Task.thread_recast]
      cases s.threads[id]? with
      | none => exact hgoes
      | some cell =>
          cases cell with
          | waits callee file =>
              have hcall := Task.applying_recast g .ground extra (Task.idle file) s callee []
                .nowhere
              rw [hnowhere] at hcall
              have hstarted := Task.setThread_recast (g := g) extra s id .runs
              simp only [Option.map_some, ThreadCell.recast, List.map_cons, ← hcall, ← hstarted]
              exact congrArg (fun s => World.mk s _ _ _) <|
                (Store.signed_setThread _ id .runs).trans
                  (congrArg (Store.setThread · id .runs) (Store.signed_recast g extra s))
          | runs => exact hgoes
          | ended result => cases result <;> exact hgoes

/-- Two runs that look the same in guises that they fit look the same after the same
thread did something in both. -/
theorem act_alike {g' : Guise} {below' : Footing} {extra' : Nat} {w' : World}
    (hsits : Sits g below) (hsits' : Sits g' below') (hfits : w.Fits g below extra limits)
    (hfits' : w'.Fits g' below' extra' limits)
    (h : w.recast g below extra = w'.recast g' below' extra') (actor : Option Nat) :
    (w.act limits actor).recast g below extra = (w'.act limits actor).recast g' below' extra' := by
  rw [← act_recast hsits hfits, ← act_recast hsits' hfits', h]

/-- Runs that look the same do so in the same surroundings. -/
theorem within_alike {g' : Guise} {below' : Footing} {extra' : Nat} {w' : World}
    (h : w.recast g below extra = w'.recast g' below' extra') {o o' : Outside}
    (ho : o.recast g = o'.recast g') :
    (w.within o).recast g below extra = (w'.within o').recast g' below' extra' := by
  let inside (o : Outside) (v : World) : World := { v with store := { v.store with outside := o } }
  change inside (o.recast g) (w.recast g below extra) =
    inside (o'.recast g') (w'.recast g' below' extra')
  rw [h, ho]

end

end World

end Scriptlet
