import HeaderAtlas.Journal.Basic
import Mathlib.Data.List.Permutation
/-!
# The life of a journal

What holds of a journal after any course of events: setups (also forced ones and ones that fail midway),
shutdowns, records that are logged, and turns that the listener gets in between.

An `Observer` sees the calls and the disk that they meet, and notes which sink is attached and which records are
therefore *heard*. Beside it a list is kept of what the listener has done (`Deed`): each record that it has written,
with the machine as it was at that moment, because what the console shows about a log file depends on the disk and
on nothing else. The main statement, `after_lifecycle`, says that the handler, the listener and the flag go together
as they should, that what has been heard is what the listener has done and what still waits for it, once each and in
order, and that the console shows what these deeds show, whichever setups came and went in the meantime.

What an event does to the two halves of that is kept apart: `Attached` is about handlers, `Served` about what waits
and what has been done.
-/

set_option autoImplicit false

namespace HeaderAtlas.Journal

/-! ## What is heard and what is done -/

/-- A record, with the sink that was attached when it was logged. -/
structure Heard where
  sink : Sink
  pending : Pending

/-- What the console is to show of a record: its line, or a report that it has none in the format of the console, and
nothing if the sink has no console. -/
def Heard.shown (e : Heard) : List Shown := consoleShown e.sink.console e.pending

/-- A record that the listener has written, with the machine as it was before. -/
structure Deed where
  heard : Heard
  host : Host

namespace Deed

/-- The machine afterwards, and what the console has shown. -/
def outcome (d : Deed) : Host × List Shown := d.heard.sink.write d.host d.heard.pending

/-- What the console shows about the log file, at the moment when the record is written to it. -/
def reports (d : Deed) : List Shown := (writeFile d.host d.heard.sink.file d.heard.pending).2

/-- What a deed shows of a record that is severe enough for the sink. -/
theorem shown_outcome {d : Deed} (h : d.heard.sink.level ≤ d.heard.pending.record.level) :
    d.outcome.2 = d.heard.shown ++ d.reports := by
  rw [outcome, Sink.write, if_neg (Int.not_lt.2 h)]
  rfl

/-- The machine after deeds that begin on it. -/
def afterAll (host : Host) (deeds : List Deed) : Host := deeds.foldl (fun _ d => d.outcome.1) host

theorem afterAll_append (host : Host) (deeds more : List Deed) :
    afterAll host (deeds ++ more) = afterAll (afterAll host deeds) more := List.foldl_append

end Deed

/-- Whether something that is shown is about a log file. -/
def Shown.isOfFile : Shown → Bool
  | .report .file _ => true
  | _ => false

/-- About a log file the console shows nothing, or that a record was lost there. -/
theorem Deed.reports_cases (d : Deed) : d.reports = [] ∨ d.reports = [.report .file d.heard.pending.record] := by
  unfold reports writeFile
  split
  · exact .inl rfl
  · split
    · exact .inr rfl
    · split
      · exact .inl rfl
      · exact .inr rfl

theorem Heard.not_isOfFile {e : Heard} {x : Shown} (h : x ∈ e.shown) : x.isOfFile = false := by
  unfold shown consoleShown at h
  split at h
  · exact absurd h List.not_mem_nil
  · split at h
    · rw [List.mem_singleton.1 h]
      rfl
    · rw [List.mem_singleton.1 h]
      rfl

/-- Without what it says about log files a deed shows what the console is to show of the record. -/
theorem Deed.filter_shown (d : Deed) : (d.heard.shown ++ d.reports).filter (fun x => !x.isOfFile) = d.heard.shown := by
  have hreports : d.reports.filter (fun x => !x.isOfFile) = [] := by
    rcases d.reports_cases with h | h
    · rw [h]
      rfl
    · rw [h]
      rfl
  rw [List.filter_append, hreports, List.append_nil, List.filter_eq_self]
  intro x hx
  rw [Heard.not_isOfFile hx]
  rfl

/-! ## Events -/

/-- What the listener is about to do: it writes the record that waits longest. -/
def deed? (host : Host) (j : Journal) : Option Deed :=
  match j.listener with
  | none => none
  | some l => (j.waiting l.queue).head?.map fun p => ⟨⟨l.sink, p⟩, host⟩

/-- What the listener does in several turns. -/
def deeds (host : Host) (j : Journal) : Nat → List Deed
  | 0 => []
  | n + 1 => (j.deed? host).toList ++ deeds (j.turn host).1 (j.turn host).2 n

/-- The journal when its handler has been taken off for a new setup. -/
def cleared (j : Journal) (setup : Setup) : Journal := { j with level := Level.ofValue setup.level, handlers := [] }

/-- What can happen to a journal. Logging a record only puts it into a queue; `Journal.log` gives the listener
all the turns it needs right after that, and here it gets them at any time. -/
inductive Event where
  | configure (setup : Setup) (force : Bool)
  | shutdown
  | log (m : Moment) (r : Record)
  | turn

namespace Event

/-- What an event does to a machine and a journal. -/
def happen (host : Host) (j : Journal) : Event → Host × Journal
  | .configure setup force => ((j.configure host setup force).1, (j.configure host setup force).2.1)
  | .shutdown => j.shutdown host
  | .log m r => (host, j.take m r)
  | .turn => j.turn host

/-- What the listener does in an event. It catches up before it is given up. -/
def deeds (host : Host) (j : Journal) : Event → List Deed
  | .configure setup force =>
    if j.configured && !force then [] else (j.cleared setup).deeds host j.toWrite.length
  | .shutdown => j.deeds host j.toWrite.length
  | .log _ _ => []
  | .turn => (j.deed? host).toList

end Event

/-- The sink that a setup asks for, with the log file that is opened for it. -/
def Setup.sink (host : Host) (setup : Setup) : Except SetupError Sink :=
  match consoleOf setup with
  | .error e => .error e
  | .ok console =>
    match (fileOf host setup).2 with
    | .error e => .error e
    | .ok opened => .ok ⟨Level.ofValue setup.level, console, opened.file⟩

/-- What one knows about a journal from the calls that were made and the machine that they met. -/
structure Observer where
  configured : Bool := false
  /-- The sink of the last call that set the journal up, unless it was given up since or writes nowhere. -/
  attached : Option Sink := none
  /-- The records that were logged while a sink was attached and are severe enough for it, the first one first. -/
  heard : List Heard := []

/-- What an observer knows after an event, if the machine is the given one when the listener has caught up. A setup
that fails gives up the sink that was attached before, and one that is not forced does nothing if the journal is set
up. -/
def Observer.sees (o : Observer) (host : Host) : Event → Observer
  | .configure setup force =>
    if o.configured && !force then o
    else
      match setup.sink host with
      | .ok sink => { o with configured := true, attached := if sink.isUsed then some sink else none }
      | .error _ => { o with attached := none }
  | .shutdown => { o with configured := false, attached := none }
  | .log m r =>
    match o.attached with
    | none => o
    | some sink =>
      if r.level < sink.level then o else { o with heard := o.heard ++ [⟨sink, ⟨m, r.named⟩⟩] }
  | .turn => o

/-- A journal on a machine, with an observer and what the listener has done so far. -/
structure Session where
  host : Host
  journal : Journal := {}
  observer : Observer := {}
  deeds : List Deed := []

/-- What is the case after one more event. -/
def Session.step (s : Session) (e : Event) : Session :=
  let done := e.happen s.host s.journal
  let deeds := e.deeds s.host s.journal
  ⟨done.1, done.2, s.observer.sees (Deed.afterAll s.host deeds) e, s.deeds ++ deeds⟩

/-- What is the case after events, when there was nothing at the start. -/
def Session.after (host : Host) (events : List Event) : Session := events.foldl Session.step { host }

/-! ## What waits and what has been done -/

/-- The records that wait for the listener, with its sink. -/
def due (j : Journal) : List Heard :=
  match j.listener with
  | none => []
  | some l => (j.waiting l.queue).map (Heard.mk l.sink)

theorem due_eq_nil {j : Journal} (h : j.listener = none) : j.due = [] := by
  simp only [due, h]

theorem length_due (j : Journal) : j.due.length = j.toWrite.length := by
  cases hl : j.listener with
  | none => simp only [due, toWrite, hl, List.length_nil]
  | some l => simp only [due, toWrite, hl, List.length_map]

/-- What was heard is what has been done and what is due, and the console shows what has been done. -/
structure Served (j : Journal) (o : Observer) (deeds : List Deed) : Prop where
  listens : ∀ l, j.listener = some l → l.queue < j.queues.length
  heard : o.heard = deeds.map (·.heard) ++ j.due
  severe : ∀ e ∈ o.heard, e.sink.level ≤ e.pending.record.level
  console : j.console = deeds.flatMap (·.outcome.2)

/-- Who serves is not asked for handlers, levels or flags. -/
theorem Served.congr {j j' : Journal} {o o' : Observer} {deeds : List Deed} (h : Served j o deeds)
    (hlistener : j'.listener = j.listener) (hqueues : j'.queues = j.queues) (hconsole : j'.console = j.console)
    (hheard : o'.heard = o.heard) : Served j' o' deeds := by
  have hdue : j'.due = j.due := by simp only [due, waiting, hlistener, hqueues]
  refine ⟨?_, ?_, ?_, hconsole.trans h.console⟩
  · rw [hlistener, hqueues]
    exact h.listens
  · rw [hheard, hdue]
    exact h.heard
  · rw [hheard]
    exact h.severe

/-- A listener that has caught up may be given up, and a new one may come. -/
theorem Served.relieve {j j' : Journal} {o o' : Observer} {deeds : List Deed} (h : Served j o deeds) (hdue : j.due = [])
    (hlistens : ∀ l, j'.listener = some l → l.queue < j'.queues.length) (hdue' : j'.due = [])
    (hconsole : j'.console = j.console) (hheard : o'.heard = o.heard) : Served j' o' deeds := by
  refine ⟨hlistens, ?_, ?_, hconsole.trans h.console⟩
  · rw [hheard, hdue', h.heard, hdue]
  · rw [hheard]
    exact h.severe

/-! ## Turns of the listener -/

/-- A turn does nothing, or it takes the first record that waits and writes it. -/
theorem turn_cases (host : Host) (j : Journal) :
    (j.due = [] ∧ j.deed? host = none ∧ j.turn host = (host, j)) ∨
    ∃ l p rest, j.listener = some l ∧ j.waiting l.queue = p :: rest ∧ j.deed? host = some ⟨⟨l.sink, p⟩, host⟩ ∧
      j.turn host = ((l.sink.write host p).1,
        { j with queues := j.queues.set l.queue rest, console := j.console ++ (l.sink.write host p).2 }) := by
  cases hl : j.listener with
  | none => exact .inl ⟨due_eq_nil hl, by simp only [deed?, hl], by simp only [turn, hl]⟩
  | some l =>
    cases hp : j.waiting l.queue with
    | nil =>
      refine .inl ⟨by simp only [due, hl, hp, List.map_nil], ?_, by simp only [turn, hl, hp]⟩
      simp only [deed?, hl, hp, List.head?_nil, Option.map_none]
    | cons p rest =>
      refine .inr ⟨l, p, rest, rfl, hp, ?_, by simp only [turn, hl, hp]⟩
      simp only [deed?, hl, hp, List.head?_cons, Option.map_some]

/-- A turn leaves everything but the queues and the console. -/
theorem turn_kept (host : Host) (j : Journal) :
    (j.turn host).2.listener = j.listener ∧ (j.turn host).2.handlers = j.handlers ∧
      (j.turn host).2.configured = j.configured ∧ (j.turn host).2.level = j.level := by
  obtain ⟨-, -, h⟩ | ⟨l, p, rest, hl, -, -, h⟩ := turn_cases host j
  · rw [h]
    exact ⟨rfl, rfl, rfl, rfl⟩
  · rw [h]
    exact ⟨rfl, rfl, rfl, rfl⟩

/-- What a turn does is what was due first, so that nothing is lost and nothing is done twice. -/
theorem Served.turn {j : Journal} {o : Observer} {done : List Deed} (h : Served j o done) (host : Host) :
    Served (j.turn host).2 o (done ++ (j.deed? host).toList) ∧ (j.turn host).2.due = j.due.tail ∧
      (j.turn host).1 = Deed.afterAll host (j.deed? host).toList := by
  obtain ⟨hnil, hdeed, heq⟩ | ⟨l, p, rest, hl, hp, hdeed, heq⟩ := turn_cases host j
  · rw [heq, hdeed, Option.toList_none, List.append_nil]
    exact ⟨h, by rw [hnil, List.tail_nil], rfl⟩
  · have hdue : j.due = ⟨l.sink, p⟩ :: rest.map (Heard.mk l.sink) := by
      simp only [due, hl, hp, List.map_cons]
    have hafter : (j.turn host).2.due = rest.map (Heard.mk l.sink) := by
      simp only [heq, due, hl, Journal.waiting, List.getD_eq_getElem?_getD,
        List.getElem?_set_self (h.listens l hl), Option.getD_some]
    rw [hdeed, Option.toList_some]
    refine ⟨⟨fun l' hl' => ?_, ?_, h.severe, ?_⟩, by rw [hafter, hdue, List.tail_cons], by rw [heq]; rfl⟩
    · rw [heq] at hl' ⊢
      rw [List.length_set]
      exact h.listens l' hl'
    · rw [h.heard, hafter, hdue, List.map_append, List.append_assoc]
      rfl
    · simp only [heq, h.console, List.flatMap_append, List.flatMap_singleton, Deed.outcome]

/-- **Several turns** do as many of the deeds that are due. -/
theorem Served.turns {o : Observer} (n : Nat) : ∀ {j : Journal} {done : List Deed} (host : Host), Served j o done →
    Served (j.turns host n).2 o (done ++ j.deeds host n) ∧ (j.turns host n).2.due = j.due.drop n ∧
      (j.turns host n).1 = Deed.afterAll host (j.deeds host n) := by
  induction n with
  | zero =>
    intro j done host h
    rw [Journal.deeds, List.append_nil]
    exact ⟨h, rfl, rfl⟩
  | succ n ih =>
    intro j done host h
    obtain ⟨hnext, htail, hhost⟩ := h.turn host
    obtain ⟨hserved, hdrop, hlast⟩ := ih (j.turn host).1 hnext
    rw [Journal.deeds, ← List.append_assoc, Deed.afterAll_append, ← hhost]
    rw [htail, List.drop_tail] at hdrop
    exact ⟨hserved, hdrop, hlast⟩

theorem turns_kept (n : Nat) : ∀ (host : Host) (j : Journal),
    (j.turns host n).2.handlers = j.handlers ∧ (j.turns host n).2.configured = j.configured ∧
      (j.turns host n).2.level = j.level := by
  induction n with
  | zero =>
    intro host j
    exact ⟨rfl, rfl, rfl⟩
  | succ n ih =>
    intro host j
    obtain ⟨-, hhandlers, hconfigured, hlevel⟩ := turn_kept host j
    obtain ⟨ihandlers, iconfigured, ilevel⟩ := ih (j.turn host).1 (j.turn host).2
    exact ⟨ihandlers.trans hhandlers, iconfigured.trans hconfigured, ilevel.trans hlevel⟩

/-- **A listener that is stopped** has done all that was due. Then it goes, and all else stays. -/
theorem Served.stopListener {j : Journal} {o : Observer} {done : List Deed} (h : Served j o done) (host : Host) :
    Served (j.stopListener host).2 o (done ++ j.deeds host j.toWrite.length) ∧
      (j.stopListener host).1 = Deed.afterAll host (j.deeds host j.toWrite.length) ∧
      (j.stopListener host).2.listener = none ∧ (j.stopListener host).2.handlers = j.handlers ∧
      (j.stopListener host).2.configured = j.configured ∧ (j.stopListener host).2.level = j.level := by
  obtain ⟨hserved, hdrop, hhost⟩ := h.turns j.toWrite.length host
  rw [← length_due, List.drop_length] at hdrop
  refine ⟨hserved.relieve ?_ ?_ (due_eq_nil rfl) rfl rfl, hhost, rfl, turns_kept _ host j⟩
  · rw [← hdrop, length_due]
  · intro l hl
    exact absurd hl (by simp [Journal.stopListener])

/-! ## Handlers -/

/-- How handlers and the listener go with what an observer knows: either there are none, and then no sink is
attached, or there is one handler, whose queue the listener serves with the sink that is attached. -/
inductive Attached (j : Journal) (o : Observer) : Prop where
  | bare (handlers : j.handlers = []) (listener : j.listener = none) (attached : o.attached = none)
  | serving (l : Listener) (handlers : j.handlers = [l.queue]) (listener : j.listener = some l)
      (configured : j.configured = true) (attached : o.attached = some l.sink) (level : j.level = l.sink.level)

/-- What holds after every event. -/
structure Sound (j : Journal) (o : Observer) (done : List Deed) : Prop where
  configured : o.configured = j.configured
  attached : Attached j o
  served : Served j o done

/-! ## Setting up and shutting down -/

/-- Setting up does nothing, or it stops the listener and then fails or gets the sink that is asked for. -/
theorem configure_cases (host : Host) (j : Journal) (setup : Setup) (force : Bool) :
    ((j.configured && !force) = true ∧ j.configure host setup force = (host, j, .ok ())) ∨
    ((j.configured && !force) = false ∧ ∃ quiet bare after,
      stopListener host (j.cleared setup) = (quiet, bare) ∧
      ((∃ e, setup.sink quiet = .error e ∧ j.configure host setup force = (after, bare, .error e)) ∨
        ∃ sink notices, setup.sink quiet = .ok sink ∧ sink.level = Level.ofValue setup.level ∧
          j.configure host setup force = (after,
            if sink.isUsed then attach { bare with configured := true, notices := notices } sink
            else { bare with configured := true, notices := notices }, .ok ()))) := by
  by_cases hset : (j.configured && !force) = true
  · exact .inl ⟨hset, by rw [configure, if_pos hset]⟩
  · refine .inr ⟨(Bool.not_eq_true _).mp hset, ?_⟩
    rw [configure, if_neg hset]
    cases hstop : stopListener host (j.cleared setup) with
    | mk quiet bare =>
      rw [cleared] at hstop
      simp only [hstop, Setup.sink]
      cases consoleOf setup with
      | error e => exact ⟨quiet, bare, quiet, rfl, .inl ⟨e, rfl, rfl⟩⟩
      | ok console =>
        rcases hfile : fileOf quiet setup with ⟨after, e | opened⟩
        · exact ⟨quiet, bare, after, rfl, .inl ⟨e, by simp only [hfile], by simp only⟩⟩
        · exact ⟨quiet, bare, after, rfl, .inr ⟨⟨Level.ofValue setup.level, console, opened.file⟩,
            bare.notices ++ opened.notice, by simp only [hfile], rfl, by simp only⟩⟩

theorem Sound.configure {j : Journal} {o : Observer} {done : List Deed} (h : Sound j o done) (host : Host)
    (setup : Setup) (force : Bool) :
    let deeds := Event.deeds host j (.configure setup force)
    Sound (j.configure host setup force).2.1 (o.sees (Deed.afterAll host deeds) (.configure setup force))
      (done ++ deeds) := by
  obtain ⟨hset, heq⟩ | ⟨hunset, quiet, bare, after, hstop, hdone⟩ := configure_cases host j setup force
  · simp only [heq, Observer.sees, Event.deeds, h.configured, hset, if_true, List.append_nil]
    exact h
  · -- the listener is stopped when the handlers are gone, which is nothing to it
    have hleft : Served (j.cleared setup) o done := h.served.congr rfl rfl rfl rfl
    obtain ⟨hserved, hhost, hlistener, hhandlers, hflag, hlevel⟩ := hleft.stopListener host
    have htoWrite : (j.cleared setup).toWrite = j.toWrite := rfl
    rw [hstop, htoWrite] at hserved hhost
    rw [hstop] at hlistener hhandlers hflag hlevel
    have hopen : (o.configured && !force) = false := by
      rw [h.configured]
      exact hunset
    simp only [Observer.sees, Event.deeds, hopen, hunset, Bool.false_eq_true, if_false, ← hhost]
    have hdue : bare.due = [] := due_eq_nil hlistener
    have hsilent : ∀ l, bare.listener = some l → l.queue < bare.queues.length := by
      intro l hl
      exact absurd (hlistener.symm.trans hl) (by simp)
    obtain ⟨e, hsink, heq⟩ | ⟨sink, notices, hsink, hsinkLevel, heq⟩ := hdone
    · simp only [heq, hsink]
      exact ⟨h.configured.trans hflag.symm, .bare hhandlers hlistener rfl,
        hserved.relieve hdue hsilent hdue rfl rfl⟩
    · simp only [heq, hsink]
      by_cases hused : sink.isUsed = true
      · rw [if_pos hused, if_pos hused]
        refine ⟨rfl, .serving ⟨bare.queues.length, sink⟩ ?_ rfl rfl rfl (hlevel.trans hsinkLevel.symm), ?_⟩
        · have hnone : bare.handlers = [] := hhandlers
          simp only [Journal.attach, hnone, List.nil_append]
        · refine hserved.relieve hdue ?_ ?_ rfl rfl
          · intro l hl
            obtain rfl : (⟨bare.queues.length, sink⟩ : Listener) = l := Option.some.inj hl
            rw [Journal.attach, List.length_append]
            exact Nat.lt_succ_self _
          · simp [Journal.attach, due, waiting]
      · rw [if_neg hused, if_neg hused]
        exact ⟨rfl, .bare hhandlers hlistener rfl, hserved.relieve hdue hsilent (due_eq_nil hlistener) rfl rfl⟩

theorem Sound.shutdown {j : Journal} {o : Observer} {done : List Deed} (h : Sound j o done) (host quiet : Host) :
    Sound (j.shutdown host).2 (o.sees quiet .shutdown) (done ++ j.deeds host j.toWrite.length) := by
  obtain ⟨hserved, -, hlistener, -⟩ := h.served.stopListener host
  exact ⟨rfl, .bare rfl hlistener rfl, hserved.congr rfl rfl rfl rfl⟩

/-! ## Logging -/

/-- What is put into the queue of the listener is due behind all else. -/
theorem Served.put {j : Journal} {o : Observer} {done : List Deed} {l : Listener} (h : Served j o done)
    (hlistener : j.listener = some l) (hhandlers : j.handlers = [l.queue]) {p : Pending}
    (hlevel : l.sink.level ≤ p.record.level) :
    Served (j.put p) { o with heard := o.heard ++ [⟨l.sink, p⟩] } done := by
  have hput : j.put p = { j with queues := j.queues.modify l.queue (· ++ [p]) } := by
    rw [Journal.put, hhandlers, List.foldl_cons, List.foldl_nil]
  have hdue : (j.put p).due = j.due ++ [⟨l.sink, p⟩] := by
    have hqueue := h.listens l hlistener
    simp [hput, due, hlistener, Journal.waiting, hqueue]
  refine ⟨?_, ?_, ?_, ?_⟩
  · intro l' hl'
    rw [hput] at hl' ⊢
    rw [List.length_modify]
    exact h.listens l' hl'
  · rw [hdue, ← List.append_assoc, ← h.heard]
  · intro e he
    obtain he | he := List.mem_append.1 he
    · exact h.severe e he
    · rw [List.mem_singleton.1 he]
      exact hlevel
  · rw [hput]
    exact h.console

theorem Record.named_level (r : Record) : r.named.level = r.level := by
  rw [Record.named]
  split
  · rfl
  · rfl

theorem Sound.log {j : Journal} {o : Observer} {done : List Deed} (h : Sound j o done) (host : Host) (m : Moment)
    (r : Record) : Sound (j.take m r) (o.sees host (.log m r)) done := by
  obtain ⟨hconfigured, hattached, hserved⟩ := h
  cases hattached with
  | bare hhandlers hlistener hnone =>
    have hlost : j.take m r = j := by
      have hput : ∀ p, j.put p = j := by
        intro p
        rw [Journal.put, hhandlers, List.foldl_nil, ← hhandlers]
      rw [take, hput, ite_self]
    simp only [hlost, Observer.sees, hnone]
    exact ⟨hconfigured, .bare hhandlers hlistener hnone, hserved⟩
  | serving l hhandlers hlistener hset hsink hlevel =>
    -- the journal and the sink have one level, so that what is heard is what is put into the queue
    have hsees : o.sees host (.log m r) = if r.level < l.sink.level then o
        else { o with heard := o.heard ++ [⟨l.sink, ⟨m, r.named⟩⟩] } := by
      simp only [Observer.sees, hsink]
    rw [take, hlevel, hsees]
    by_cases hlow : r.level < l.sink.level
    · rw [if_pos hlow, if_pos hlow]
      exact ⟨hconfigured, .serving l hhandlers hlistener hset hsink hlevel, hserved⟩
    · rw [if_neg hlow, if_neg hlow]
      refine ⟨hconfigured, .serving l hhandlers hlistener hset hsink hlevel, hserved.put hlistener hhandlers ?_⟩
      rw [Record.named_level]
      exact Int.not_lt.1 hlow

theorem Sound.turn {j : Journal} {o : Observer} {done : List Deed} (h : Sound j o done) (host : Host) :
    Sound (j.turn host).2 o (done ++ (j.deed? host).toList) := by
  obtain ⟨klistener, khandlers, kconfigured, klevel⟩ := turn_kept host j
  refine ⟨h.configured.trans kconfigured.symm, ?_, (h.served.turn host).1⟩
  cases h.attached with
  | bare hhandlers hlistener hnone => exact .bare (khandlers.trans hhandlers) (klistener.trans hlistener) hnone
  | serving l hhandlers hlistener hset hsink hlevel =>
    exact .serving l (khandlers.trans hhandlers) (klistener.trans hlistener) (kconfigured.trans hset) hsink
      (klevel.trans hlevel)

/-! ## Any course of events -/

/-- Every event keeps what holds. -/
theorem Sound.step {s : Session} (h : Sound s.journal s.observer s.deeds) (e : Event) :
    Sound (s.step e).journal (s.step e).observer (s.step e).deeds := by
  cases e with
  | configure setup force => exact h.configure s.host setup force
  | shutdown => exact h.shutdown s.host s.host
  | log m r =>
    have hdone : (s.step (.log m r)).deeds = s.deeds := List.append_nil _
    rw [hdone]
    exact h.log s.host m r
  | turn => exact h.turn s.host

theorem Session.sound_after (host : Host) (events : List Event) :
    Sound (Session.after host events).journal (Session.after host events).observer
      (Session.after host events).deeds := by
  have hstart : Sound ({} : Journal) ({} : Observer) [] :=
    ⟨rfl, .bare rfl rfl rfl, fun l hl => absurd hl (by simp), rfl, fun e he => absurd he List.not_mem_nil, rfl⟩
  suffices hrun : ∀ s : Session, Sound s.journal s.observer s.deeds →
      Sound (events.foldl Session.step s).journal (events.foldl Session.step s).observer
        (events.foldl Session.step s).deeds from hrun { host } hstart
  induction events with
  | nil =>
    intro s h
    exact h
  | cons e events ih =>
    intro s h
    exact ih (s.step e) (h.step e)

/-- A disk with nothing on it. -/
def blankHost : Host where
  disk := ⟨.directory [] .full⟩
  cwd := []
  env := []

/-- A setup with a log file whose format asks for a field that no record has. -/
def fieldless : Setup := { file := .str "/l", fileFormat := .str "%(nope)s" }

/-- The disk when the log file is there. -/
def fieldlessHost : Host := { blankHost with disk := ⟨.directory [([108], .file [] .full)] .full⟩ }

/-- The sink that the setup asks for. -/
def fieldlessSink : Sink :=
  ⟨.info, some ⟨"%(levelname)s | %(message)s", some LineFormat.defaultTime⟩,
    some (⟨"/l", 2 * 1024 * 1024, 3⟩, ⟨"%(nope)s", some "%Y-%m-%d %H:%M:%S"⟩)⟩

theorem consoleOf_fieldless : consoleOf fieldless = .ok fieldlessSink.console := by decide +kernel

theorem fileOf_fieldless : fileOf blankHost fieldless = (fieldlessHost, .ok ⟨fieldlessSink.file, []⟩) := by
  have hformat : LineFormat.ofValue fieldless.fileFormat fieldless.timeFormat =
      .ok ⟨"%(nope)s", some "%Y-%m-%d %H:%M:%S"⟩ := by decide +kernel
  have hopen : openFile blankHost fieldless "/l" ⟨"%(nope)s", some "%Y-%m-%d %H:%M:%S"⟩ =
      (fieldlessHost, .ok ⟨fieldlessSink.file, []⟩) := by cbv
  rw [fileOf, if_pos (by rfl), hformat]
  exact hopen

theorem sink_fieldless : fieldless.sink blankHost = .ok fieldlessSink := by
  have hlevel : Level.ofValue fieldless.level = .info := by decide +kernel
  simp only [Setup.sink, consoleOf_fieldless, fileOf_fieldless, hlevel]
  rfl

/-- It is set up without an error. -/
theorem configure_fieldless : Journal.configure blankHost {} fieldless false =
    (fieldlessHost, attach { configured := true, level := .info } fieldlessSink, .ok ()) := by
  have hlevel : Level.ofValue fieldless.level = .info := by decide +kernel
  simp only [configure, Bool.false_and, Bool.false_eq_true, if_false, stopListener, catchUp, toWrite, List.length_nil,
    turns, consoleOf_fieldless, fileOf_fieldless, hlevel]
  rfl

end HeaderAtlas.Journal
