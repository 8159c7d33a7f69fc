/-
Places and spellings of tokens and type hints in a program change nothing but
the places in reports.  Runs of two programs that differ in nothing else, and
meet the same events, look the same step by step in a guise that blurs these; the
one thing in a run that asks whether a place is known, giving a report its place,
is blurred too since all that is kept of a report of a thread agrees but for its
place.
-/
import Scriptlet.Proofs.GuiseWorlds
import Scriptlet.Proofs.Reached

namespace Scriptlet

/-- The answers of a host seen through what is left of its values: asked for some such, it
answers as it does for values of which that is left. -/
noncomputable def Host.seen (blur : HostValue → HostValue) (h : Host) : Host where
  call f left := (h.call f (Classical.epsilon fun args => args.map blur = left)).map (List.map blur)
  member p name := (h.member p name).map fun
    | .method f => .method f
    | .field v => .field (blur v)

/-- No places, spellings and type hints are left. -/
noncomputable def Guise.blurred : Guise :=
  ⟨fun _ => .nowhere, fun _ => "", fun _ => none, id, fun _ b => b, false, id, Host.seen⟩

/-- Whether two hosts, asked for things that differ in places, spellings and type hints only,
give such things. -/
structure Host.Alike (h h' : Host) : Prop where
  call : ∀ (f : HostFunction) (args args' : List HostValue),
    args.map (HostValue.recast .blurred) = args'.map (HostValue.recast .blurred) →
    (h.call f args).map (List.map (HostValue.recast .blurred)) =
      (h'.call f args').map (List.map (HostValue.recast .blurred))
  member : ∀ (p : HostPointer) (name : String),
    (h.member p name).map (HostMember.recast .blurred) =
      (h'.member p name).map (HostMember.recast .blurred)

structure Outside.Alike (o o' : Outside) : Prop where
  same : { o with host := .bare } = { o' with host := .bare }
  host : o.host.Alike o'.host

structure Event.Alike (e e' : Event) : Prop where
  actor : e.actor = e'.actor
  outside : e.outside.Alike e'.outside

namespace Host

variable {h h' : Host}

theorem Alike.left (hh : h.Alike h') : h.Alike h where
  call f args args' hargs := (hh.call f args args' hargs).trans (hh.call f args' args' rfl).symm
  member _ _ := rfl

theorem Alike.symm (hh : h.Alike h') : h'.Alike h where
  call f args args' hargs := (hh.call f args' args hargs.symm).symm
  member p name := (hh.member p name).symm

theorem alike_bare : bare.Alike bare := ⟨fun _ _ _ _ => rfl, fun _ _ => rfl⟩

theorem member_blurred (h : Host) (p : HostPointer) (name : String) :
    (h.recast .blurred).member p name = (h.member p name).map (HostMember.recast .blurred) := by
  change (h.member p name).map _ = _
  cases h.member p name with
  | none => rfl
  | some m => cases m <;> rfl

/-- Hosts that are alike look the same. -/
theorem Alike.recast_eq (hh : h.Alike h') : h.recast .blurred = h'.recast .blurred := by
  have hmember : (h.recast .blurred).member = (h'.recast .blurred).member := by
    funext p name
    rw [member_blurred, member_blurred, hh.member]
  have hcall : (h.recast .blurred).call = (h'.recast .blurred).call := by
    funext f left
    exact hh.call f _ _ rfl
  exact congrArg₂ Host.mk hcall hmember

/-- A host that is alike to another answers for what is asked in the blur. -/
theorem Alike.knows (hh : h.Alike h') (x : Value) : Guise.blurred.Knows h x := by
  cases x with
  | hostFunction f name bound id =>
      intro args
      have hleft : (Classical.epsilon fun found : List HostValue =>
            found.map (HostValue.recast .blurred) = args.map (HostValue.recast .blurred)).map
          (HostValue.recast .blurred) = args.map (HostValue.recast .blurred) :=
        Classical.epsilon_spec (p := fun found : List HostValue =>
          found.map (HostValue.recast .blurred) = args.map (HostValue.recast .blurred)) ⟨args, rfl⟩
      exact hh.left.call f _ args hleft
  | host p id => exact member_blurred h p
  | _ => trivial

end Host

theorem Outside.Alike.recast_eq {o o' : Outside} (h : o.Alike o') :
    o.recast .blurred = o'.recast .blurred := by
  have hinside : ∀ o : Outside, o.recast .blurred =
      { ({ o with host := .bare } : Outside) with host := o.host.recast .blurred } := fun _ => rfl
  rw [hinside o, hinside o', h.same, h.host.recast_eq]

theorem Fault.recast_blurred (fault : Fault) : fault.recast .blurred = fault := by
  cases fault <;> rfl

namespace World

variable {limits : Limits} {horizon : Nat} {w w' : World}

/-- A run with no places, spellings and type hints. -/
noncomputable def blurred (w : World) : World := w.recast .blurred .ground 0

theorem Honest.fits_blurred (h : w.Honest) {host : Host} (hhost : w.store.outside.host.Alike host) :
    w.Fits .blurred .ground 0 limits := by
  have hfits : ∀ t ∈ w.tasks, t.Fits .blurred .ground 0 limits w.store := by
    intro t ht
    refine ⟨.inl rfl, .inl ⟨rfl, rfl⟩, .inl rfl, fun _ _ _ _ => rfl, nofun, ?_, ?_⟩
    · intro o hcontrol f ho p
      subst ho
      exact Task.located_recast_of_nowhere 0 w.store (fun _ => rfl)
        (fun id hid => h.told t ht f id hcontrol hid) p
    · exact fun x _ => hhost.knows x
  exact ⟨hfits w.main List.mem_cons_self, fun entry hmem => hfits entry.2 (mem_tasks hmem)⟩

/-- Whether two runs are honest, equally old and look the same. -/
structure Indistinct (w w' : World) : Prop where
  left : w.Honest
  right : w'.Honest
  age : w.age = w'.age
  same : w.blurred = w'.blurred

/-- Two runs that look the same do so after events that are alike. -/
theorem Indistinct.move (h : w.Indistinct w') {e e' : Event} (he : e.Alike e') :
    (w.move limits e).Indistinct (w'.move limits e') := by
  have hw := h.left.within e.outside
  have hw' := h.right.within e'.outside
  refine ⟨h.left.move limits e, h.right.move limits e', ?_, ?_⟩
  · rw [age_move, age_move, h.age]
  · have hsame : (w.within e.outside).blurred = (w'.within e'.outside).blurred :=
      within_alike h.same he.outside.recast_eq
    rw [World.move, World.move, he.actor]
    exact act_alike ⟨rfl, rfl⟩ ⟨rfl, rfl⟩ (hw.fits_blurred he.outside.host)
      (hw'.fits_blurred he.outside.host.symm) hsame _

theorem Indistinct.doing (h : w.Indistinct w') {c c' : Control}
    (hc : c.recast .blurred = c'.recast .blurred)
    (hgoing : ∀ o, c ≠ .outcome o) (hgoing' : ∀ o, c' ≠ .outcome o) :
    (w.doing c).Indistinct (w'.doing c') := by
  refine ⟨h.left.doing hgoing, h.right.doing hgoing', h.age, ?_⟩
  have hsame := h.same
  unfold blurred at hsame ⊢
  rw [doing_recast, doing_recast, hsame, hc]

variable {ω ω' : Nat → Event}

/-- Two runs that look the same come to results that look the same, or both to
none. -/
theorem finish_blurred (hω : ∀ n, (ω n).Alike (ω' n)) (h : w.Indistinct w') :
    Option.Rel (fun r r' => r.1.recast .blurred = r'.1.recast .blurred ∧ r.2.Indistinct r'.2)
      (w.finish (.following limits ω) horizon) (w'.finish (.following limits ω') horizon) := by
  induction horizon generalizing w w' with
  | zero => exact .none
  | succ horizon ih =>
      have hresult : w.main.result?.map (Outcome.recast .blurred) =
          w'.main.result?.map (Outcome.recast .blurred) := by
        rw [← Task.result?_recast .blurred .ground _ rfl,
          ← Task.result?_recast .blurred .ground _ rfl]
        exact congrArg (fun w => w.main.result?) h.same
      cases ho : w.main.result? with
      | none =>
          rw [ho, Option.map_none, eq_comm, Option.map_eq_none_iff] at hresult
          rw [finish_succ ho, finish_succ hresult]
          refine ih (h.move ?_)
          change (ω w.age).Alike (ω' w'.age)
          rw [← h.age]
          exact hω w.age
      | some o =>
          rw [ho, Option.map_some, eq_comm, Option.map_eq_some_iff] at hresult
          obtain ⟨o', ho', hoo'⟩ := hresult
          rw [finish_result ho, finish_result ho']
          exact .some ⟨hoo'.symm, h⟩

end World

/-- Whether two endings of runs differ in places, spellings and type hints
only: the same was printed, as many values show the same, so do the global
names, as many steps were counted, and both runs failed for the same cause in
the same calls, or none did. -/
structure Ending.Alike (e e' : Ending) : Prop where
  output : e.world.store.output = e'.world.store.output
  results : e.results.map e.world.store.display = e'.results.map e'.world.store.display
  globals : e.world.store.scopes.globals.entries.map
      (fun entry => (entry.1, e.world.store.display entry.2)) =
    e'.world.store.scopes.globals.entries.map
      fun entry => (entry.1, e'.world.store.display entry.2)
  steps : e.world.store.steps = e'.world.store.steps
  failure : e.failure.map (fun f => (f.kind, f.message)) =
    e'.failure.map fun f => (f.kind, f.message)
  calls : e.failure.map (fun f => f.trace.map fun site => (site.callee, site.file)) =
    e'.failure.map fun f => f.trace.map fun site => (site.callee, site.file)
  rest : e.world.blurred = e'.world.blurred

namespace World

variable {limits : Limits} {horizon : Nat} {w w' : World} {ω ω' : Nat → Event}

theorem display_blurred (w : World) (x : Value) :
    w.blurred.store.display (x.recast .blurred) = w.store.display x :=
  Store.display_recast (Guise.blurred.veil 0) w.store x

theorem shown_blurred (w : World) (values : List Value) :
    (values.map (Value.recast .blurred)).map w.blurred.store.display =
      values.map w.store.display := by
  simp only [List.map_map, Function.comp_def, display_blurred]

theorem globals_blurred (w : World) :
    w.blurred.store.scopes.globals.entries.map
        (fun entry => (entry.1, w.blurred.store.display entry.2)) =
      w.store.scopes.globals.entries.map fun entry => (entry.1, w.store.display entry.2) := by
  have hentries : w.blurred.store.scopes.globals.entries =
      w.store.scopes.globals.entries.map fun entry => (entry.1, entry.2.recast .blurred) := rfl
  rw [hentries, List.map_map]
  simp only [Function.comp_def, display_blurred]

/-- Endings that look the same differ in places, spellings and type hints
only. -/
theorem alike_of_blurred {e e' : Ending} (hworld : e.world.blurred = e'.world.blurred)
    (hresults : e.results.map (Value.recast .blurred) = e'.results.map (Value.recast .blurred))
    (hfailure :
      e.failure.map (Failure.recast .blurred) = e'.failure.map (Failure.recast .blurred)) :
    e.Alike e' where
  output := congrArg (fun w => w.store.output) hworld
  results := by rw [← shown_blurred e.world, ← shown_blurred e'.world, hworld, hresults]
  globals := by rw [← globals_blurred e.world, ← globals_blurred e'.world, hworld]
  steps := congrArg (fun w => w.store.steps) hworld
  failure := by
    have hcause : ∀ failure : Option Failure, failure.map (fun f => (f.kind, f.message)) =
        (failure.map (Failure.recast .blurred)).map fun f => (f.kind, f.message) := by
      intro failure
      simp only [Option.map_map, Function.comp_def, Failure.kind, Failure.message, Failure.recast,
        Fault.recast_blurred]
    rw [hcause e.failure, hcause e'.failure, hfailure]
  calls := by
    have hcalls : ∀ failure : Option Failure,
        failure.map (fun f => f.trace.map fun site => (site.callee, site.file)) =
          (failure.map (Failure.recast .blurred)).map
            fun f => f.trace.map fun site => (site.callee, site.file) := by
      intro failure
      simp only [Option.map_map, Function.comp_def, Failure.recast, List.map_map]
      rfl
    rw [hcalls e.failure, hcalls e'.failure, hfailure]
  rest := hworld

/-- Two runs of statements that look the same end alike, or both do not end. -/
theorem runFrom_blurred {statements statements' : List Stmt} {done done' : List Value}
    (hω : ∀ n, (ω n).Alike (ω' n)) (h : w.Indistinct w')
    (hdone : done.map (Value.recast .blurred) = done'.map (Value.recast .blurred))
    (hsame : statements.map (Stmt.recast .blurred) = statements'.map (Stmt.recast .blurred)) :
    Option.Rel Ending.Alike (w.runFrom (.following limits ω) horizon done statements)
      (w'.runFrom (.following limits ω') horizon done' statements') := by
  have hreverse : ∀ {xs ys : List Value},
      xs.map (Value.recast .blurred) = ys.map (Value.recast .blurred) →
      xs.reverse.map (Value.recast .blurred) = ys.reverse.map (Value.recast .blurred) := by
    intro xs ys hxs
    rw [List.map_reverse, List.map_reverse, hxs]
  -- Statement by statement: both see the same events, so one ends where the other does.
  induction statements generalizing statements' w w' done done' with
  | nil =>
      obtain rfl := List.map_eq_nil_iff.mp hsame.symm
      exact .some (alike_of_blurred h.same (hreverse hdone) rfl)
  | cons s rest ih =>
      cases statements' with
      | nil => cases hsame
      | cons s' rest' =>
          obtain ⟨hs, hrest⟩ := List.cons.inj hsame
          have hbegun : (w.doing (.stmt s [])).Indistinct (w'.doing (.stmt s' [])) :=
            h.doing (by rw [Control.recast, Control.recast, hs]) (fun _ => Control.noConfusion)
              fun _ => Control.noConfusion
          have hfinish : Option.Rel _ ((w.doing (.stmt s [])).finish (.following limits ω) horizon)
              ((w'.doing (.stmt s' [])).finish (.following limits ω') horizon) :=
            finish_blurred hω hbegun
          rw [runFrom_cons, runFrom_cons, resumeFrom, resumeFrom]
          generalize (w.doing (.stmt s [])).finish (.following limits ω) horizon = result
            at hfinish ⊢
          generalize (w'.doing (.stmt s' [])).finish (.following limits ω') horizon = result'
            at hfinish ⊢
          cases hfinish with
          | none => exact .none
          | @some r r' hr =>
              obtain ⟨o, v⟩ := r
              obtain ⟨o', v'⟩ := r'
              obtain ⟨ho, hv⟩ := hr
              have hcons : ∀ {x x' : Value}, x.recast .blurred = x'.recast .blurred →
                  (x :: done).map (Value.recast .blurred) =
                    (x' :: done').map (Value.recast .blurred) := by
                intro x x' hx
                rw [List.map_cons, List.map_cons, hx, hdone]
              cases o with
              | value x =>
                  cases o' with
                  | value x' => exact ih hv (hcons (Outcome.value.inj ho)) hrest
                  | _ => cases ho
              | returned x =>
                  cases o' with
                  | returned x' =>
                      have hx := hcons (Outcome.returned.inj ho)
                      exact .some (alike_of_blurred hv.same (hreverse hx) rfl)
                  | _ => cases ho
              | failed f =>
                  cases o' with
                  | failed f' =>
                      exact .some (alike_of_blurred hv.same (hreverse hdone)
                        (congrArg some (Outcome.failed.inj ho)))
                  | _ => cases ho
              | left =>
                  cases o' with
                  | left => exact .some (alike_of_blurred hv.same (hreverse hdone) rfl)
                  | _ => cases ho
              | skipped =>
                  cases o' with
                  | skipped => exact .some (alike_of_blurred hv.same (hreverse hdone) rfl)
                  | _ => cases ho

/-- Runs do not depend on the places and spellings of tokens and on type hints: two
programs that differ in nothing else, run from the same state under the same limits, end
alike, or both do not end within the same number of steps.  It is so in whatever order
threads go on, whatever they are called and whatever the clocks show and the writer and the
file system answer at each step, as long as both runs meet the same; only what the host
answers may differ, as places, spellings and type hints in what it is asked do. -/
theorem run_blind_to_places {p q : Program} (hw : w.Reached) (hω : ∀ n, (ω n).Alike (ω' n))
    (hfile : p.file = q.file)
    (hsame : p.statements.map (Stmt.recast .blurred) = q.statements.map (Stmt.recast .blurred)) :
    Option.Rel Ending.Alike (w.run (.following limits ω) horizon p)
      (w.run (.following limits ω') horizon q) := by
  have hopened : (w.opened p).Honest := by
    unfold opened
    split
    · exact hw.honest
    · exact hw.honest.inFile p.file
  have hopenedq : w.opened q = w.opened p := by rw [opened, opened, hfile]
  rw [run_eq, run_eq, hopenedq]
  exact runFrom_blurred hω ⟨hopened, hopened, rfl, rfl⟩ rfl hsame

/-- A program that prints what a thread is called that does nothing, and fails for a name
that stands in some place and is unknown. -/
def misspelt (digits : String) (p : Position) : Program :=
  let spawned : Expr := .call .nowhere (.name ⟨"spawn", .nowhere⟩) [.name ⟨"print", p⟩]
  ⟨"main", [.expr .nowhere "print" (.call .nowhere (.name ⟨"print", .nowhere⟩)
      [.int p digits 7, .method p spawned ⟨"id", p⟩ []]),
    .expr p "x" (.name ⟨"x", p⟩)]⟩

/-- Events of which every third is for the first thread that was started, which is called
after the number of events before. -/
def alternating (n : Nat) : Event :=
  ⟨if n % 3 = 2 then some 0 else none,
    { Outside.bare with threadName := "thread " ++ toString n, elapsed := n }⟩

theorem run_blind_to_places_misspelt :
    let w := ofStore .initial "main"
    let terms := Terms.following ⟨100, 0⟩ alternating
    ∃ e e' f f', w.run terms 100 (misspelt "7" ⟨2, 1⟩) = some e ∧
      w.run terms 100 (misspelt "007" ⟨3, 5⟩) = some e' ∧ e.Alike e' ∧
      e.failure = some f ∧ e'.failure = some f' ∧ f.position = ⟨2, 1⟩ ∧ f'.position = ⟨3, 5⟩ := by
  intro w terms
  have hfails : ∀ (digits : String) (p : Position),
      (w.run terms 100 (misspelt digits p)).any
        (fun e => e.failure.any fun f => f.position = p) = true →
      ∃ e f, w.run terms 100 (misspelt digits p) = some e ∧ e.failure = some f ∧
        f.position = p := by
    intro digits p h
    obtain ⟨e, he, hany⟩ := (Option.any_eq_true _ _).mp h
    obtain ⟨f, hf, hp⟩ := (Option.any_eq_true _ _).mp hany
    exact ⟨e, f, he, hf, of_decide_eq_true hp⟩
  obtain ⟨e, f, he, hf, hp⟩ := hfails "7" ⟨2, 1⟩ (by decide +kernel)
  obtain ⟨e', f', he', hf', hp'⟩ := hfails "007" ⟨3, 5⟩ (by decide +kernel)
  have hrel : Option.Rel Ending.Alike (w.run terms 100 (misspelt "7" ⟨2, 1⟩))
      (w.run terms 100 (misspelt "007" ⟨3, 5⟩)) :=
    run_blind_to_places (.fresh "main") (fun _ => ⟨rfl, rfl, Host.alike_bare⟩) rfl rfl
  rw [he, he'] at hrel
  cases hrel with
  | some halike => exact ⟨e, e', f, f', he, he', halike, hf, hf', hp, hp'⟩

end World

end Scriptlet
