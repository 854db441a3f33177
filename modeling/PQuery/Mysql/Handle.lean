import PQuery.DbWorker.WorkerLog
import PQuery.Library.Ownership

/-!
# Who uses a connection

`MysqlDatabase` over the handles of the client library, in the threads of a worker. An object is made and
destroyed in one scope, that of `testConnection` or of `workerThread`, and `conn` is its own; what the
library is called with is kept in order. A method is one entry, since it gives the same `conn` to all that
it calls; what its calls ask is that of the connection. Of a pass of the loop this needs which methods it
has come to (`passUses`).
-/

namespace PQuery.Mysql

open Config DbWorker Ownership

/-- The scopes in which a `MysqlDatabase` lives. -/
inductive Owner
  | testConnection
  | workerThread (number : Nat)
deriving DecidableEq, Repr

/-- The methods that give `conn` to the library. -/
inductive Method
  | connect
  | performRealQuery
  | getWarningsCount
  | getAffectedRows
  | processQueryOutput
  | getErrorString
deriving DecidableEq, Repr

inductive Event
  | mysql_init (conn : Option Nat)
  | use (method : Method) (conn : Option Nat)
  | mysql_close (conn : Nat)
deriving DecidableEq, Repr

/-- The `conn` of each object, none where there is no object, and the calls of the library. -/
structure Client where
  conn : Owner → Option (Option Nat)
  made : Nat
  log : List (Owner × Event)

def Client.empty : Client := { conn := fun _ => none, made := 0, log := [] }

/-! ### `MysqlDatabase` -/

section methods
variable (s : Client) (x : Owner)

def Client.record (e : Event) : Client := { s with log := s.log ++ [(x, e)] }

def Client.createDbInstance : Client := { s with conn := Function.update s.conn x (some none) }

/-- `mysql_close(conn)` where it is not null; what `conn` is afterwards. -/
def Client.close (left : Option (Option Nat)) : Client :=
  let s' := match (s.conn x).join with
    | some p => s.record x (.mysql_close p)
    | none => s
  { s' with conn := Function.update s.conn x left }

/-- `connect`, up to its result; `inits` says that `mysql_init` does not return null. -/
def Client.connect (inits : Bool) : Client :=
  let s := s.close x (some none)
  if inits then
    { conn := Function.update s.conn x (some (some s.made))
      made := s.made + 1
      log := s.log ++ [(x, .mysql_init (some s.made)), (x, .use .connect (some s.made))] }
  else s.record x (.mysql_init none)

/-- A method; only `getErrorString` looks at `conn` first. -/
def Client.call (method : Method) : Client :=
  match method, (s.conn x).join with
  | .getErrorString, none => s
  | method, conn => s.record x (.use method conn)

/-- The destructor. -/
def Client.destroy : Client := s.close x none

end methods

/-- `MysqlWorker::testConnection`; `accepts` says that the server takes the connection. -/
def testConnection (inits accepts : Bool) (s : Client) : Client × Bool :=
  let s := (s.createDbInstance .testConnection).connect .testConnection inits
  if inits && accepts then (s.destroy .testConnection, true)
  else ((s.call .testConnection .getErrorString).destroy .testConnection, false)

/-! ### The threads -/

section uses
variable (w : Worker) (query_number : Nat) (a : Answer)

/-- For each of the texts that follow the query in its record, the methods that give it. -/
def annotationUses : List (List Method) :=
  let p := w.params
  (if p.log_query_statistics then
    (if a.success then [[]] else [[], [.getErrorString]]) ++
      [[], [.getWarningsCount], [], [.getAffectedRows]]
    else []) ++
  (if p.log_query_duration then [[], [], []] else []) ++
  (if p.log_query_numbers then [[], []] else [])

/-- For each operation of a pass, the methods that it calls. -/
def bodyUses : List (List Method) :=
  (if logsThread w.params then
    (queryTexts w query_number a).map (fun _ => []) ++ annotationUses w a ++ [[]]
  else []) ++ [[.processQueryOutput]] ++ (outputTexts w query_number a).map (fun _ => []) ++ [[]]

/-- The methods that a pass has called when it comes to its end, or throws. -/
def passUses (l : Loop) : List Method :=
  if w.params.queries_per_thread ≤ l.i then []
  else .performRealQuery ::
    if a.queryThrows ∨ maxConFailures ≤ (l.perform w a).db.consecutive_failures then []
    else match a.failsAt with
      | none => (bodyUses w (queryNumber w a l) a).flatten
      | some k => ((bodyUses w (queryNumber w a l) a).take (k + 1)).flatten

end uses

/-- The methods that a thread calls in one of its steps; the object is made once the list is known not to
be empty. -/
def databaseCalls (w : Worker) (a : Action) (inits : Bool) (t : Thread) (s : Client) : Client :=
  let x := Owner.workerThread t.number
  match t.phase, a with
  | .starting, .start succeeds => if w.queryList.isEmpty || !succeeds then s else s.createDbInstance x
  | .connecting, .connect result =>
    let s := s.connect x inits
    match result with
    | some (false, _) => s.call x .getErrorString
    | _ => s
  | .looping, .iterate a => (passUses w a t.loop).foldl (fun s method => s.call x method) s
  | _, _ => s

/-- The object of the thread in a step to `t'`: it is destroyed when the thread leaves its function. -/
def databaseStep (w : Worker) (a : Action) (inits : Bool) (t t' : Thread) (s : Client) : Client :=
  let s := databaseCalls w a inits t s
  if t'.threw || t'.phase == .leaving [] then s.destroy (.workerThread t.number) else s

/-- A step of a thread, with what `mysql_init` answers; `connect` does not succeed without a handle. -/
def step (w : Worker) (a : Action × Bool) (s : Shared × Client) (t : Thread) :
    Option ((Shared × Client) × Thread) :=
  match a with
  | (.connect (some (true, _)), false) => none
  | (a, inits) => (t.step w a s.1).map fun r => ((r.1, databaseStep w a inits t r.2 s.2), r.2)

/-- The threads of a worker whose connection has been tested. -/
def spawned (w : Worker) : Interleaving.Config (Shared × Client) Thread :=
  { shared := (.initial, (testConnection true true .empty).1)
    locals := (DbWorker.initial w.params.threads).locals }

/-! ### What a method keeps -/

def Event.closed : Event → Option Nat
  | .mysql_close p => some p
  | _ => none

/-- Which object owns which handle. -/
def Client.ledger (s : Client) : Ledger Owner :=
  { holds := fun x => (s.conn x).join
    made := s.made
    released := s.log.filterMap fun e => e.2.closed }

/-- A handle is new; it is used and closed by the one that has it, and only before it is closed. -/
def Allowed (before : List (Owner × Event)) : Owner × Event → Prop
  | (_, .mysql_init conn) => ∀ p, conn = some p → ∀ y, (y, .mysql_init (some p)) ∉ before
  | (x, .use _ conn) => ∃ p, conn = some p ∧ (x, .mysql_init (some p)) ∈ before ∧
      ∀ y, (y, .mysql_close p) ∉ before
  | (x, .mysql_close p) => (x, .mysql_init (some p)) ∈ before ∧ ∀ y, (y, .mysql_close p) ∉ before

structure Client.Sound (s : Client) : Prop where
  ledger : s.ledger.Sound
  lawful : Lawful Allowed s.log
  opened : ∀ x p, s.conn x = some (some p) → (x, .mysql_init (some p)) ∈ s.log
  made : ∀ x p, (x, .mysql_init (some p)) ∈ s.log → p < s.made

section sound
variable {s : Client} {x y : Owner} {p : Nat}

theorem sound_empty : Client.empty.Sound :=
  ⟨Ledger.sound_empty, lawful_nil, by simp [Client.empty], by simp [Client.empty]⟩

theorem mem_closed {log : List (Owner × Event)} :
    p ∈ log.filterMap (fun e => e.2.closed) ↔ ∃ y, (y, .mysql_close p) ∈ log := by
  rw [List.mem_filterMap]
  constructor
  · rintro ⟨⟨y, e⟩, he, hclosed⟩
    cases e with
    | mysql_close q =>
      obtain rfl := Option.some.inj hclosed
      exact ⟨y, he⟩
    | _ => cases hclosed
  · rintro ⟨y, hy⟩
    exact ⟨_, hy, rfl⟩

theorem Client.Sound.live (h : s.Sound) (hx : s.conn x = some (some p)) :
    (x, .mysql_init (some p)) ∈ s.log ∧ ∀ y, (y, .mysql_close p) ∉ s.log := by
  refine ⟨h.opened x p hx, fun y hy => ?_⟩
  have hcount := (h.ledger.held x p (by simp [Client.ledger, hx])).2
  exact List.count_eq_zero.mp hcount (mem_closed.mpr ⟨y, hy⟩)

theorem holds_update (conn : Owner → Option (Option Nat)) (x : Owner) (left : Option (Option Nat)) :
    (fun z => (Function.update conn x left z).join) =
      Function.update (fun z => (conn z).join) x left.join := by
  funext z
  by_cases hz : z = x
  · rw [hz, Function.update_self, Function.update_self]
  · rw [Function.update_of_ne hz, Function.update_of_ne hz]

theorem opened_update (h : s.Sound) {conn : Option (Option Nat)} {log : List (Owner × Event)}
    (hlog : ∀ e ∈ s.log, e ∈ log) (hnew : ∀ p, conn = some (some p) → (x, .mysql_init (some p)) ∈ log) :
    ∀ y p, Function.update s.conn x conn y = some (some p) → (y, .mysql_init (some p)) ∈ log := by
  intro y p hy
  by_cases hyx : y = x
  · rw [hyx, Function.update_self] at hy
    rw [hyx]
    exact hnew p hy
  · rw [Function.update_of_ne hyx] at hy
    exact hlog _ (h.opened y p hy)

theorem Client.Sound.createDbInstance (h : s.Sound) (hx : s.conn x = none) : (s.createDbInstance x).Sound := by
  have hledger : (s.createDbInstance x).ledger = s.ledger := by
    have hjoin : (s.conn x).join = none := by rw [hx]; rfl
    simp only [Client.ledger, Client.createDbInstance, holds_update]
    congr 1
    rw [Option.join_some, ← hjoin]
    exact Function.update_eq_self x fun z => (s.conn z).join
  refine ⟨?_, h.lawful, opened_update h (fun _ he => he) fun p hp => ?_, h.made⟩
  · rw [hledger]
    exact h.ledger
  · cases hp

theorem close_eq_of_none (hx : (s.conn x).join = none) (left : Option (Option Nat)) :
    s.close x left = { s with conn := Function.update s.conn x left } := by
  unfold Client.close
  rw [hx]

theorem close_eq_of_some (hx : (s.conn x).join = some p) (left : Option (Option Nat)) :
    s.close x left =
      { s with conn := Function.update s.conn x left, log := s.log ++ [(x, .mysql_close p)] } := by
  unfold Client.close
  rw [hx]
  rfl

theorem ledger_close {left : Option (Option Nat)} (hleft : left.join = none) :
    (s.close x left).ledger = s.ledger.release x := by
  cases hx : (s.conn x).join with
  | none =>
    rw [close_eq_of_none hx]
    simp [Client.ledger, Ledger.release, holds_update, hleft, hx]
  | some p =>
    rw [close_eq_of_some hx]
    simp [Client.ledger, Ledger.release, holds_update, hleft, hx, Event.closed]

theorem Client.Sound.close (h : s.Sound) {left : Option (Option Nat)} (hleft : left.join = none) :
    (s.close x left).Sound := by
  have hledger : (s.close x left).ledger.Sound := ledger_close hleft ▸ h.ledger.release x
  have hnot : ∀ p, left ≠ some (some p) := by
    rintro p rfl
    cases hleft
  cases hx : (s.conn x).join with
  | none =>
    rw [close_eq_of_none hx] at hledger ⊢
    exact ⟨hledger, h.lawful, opened_update h (fun _ he => he) fun p hp => absurd hp (hnot p), h.made⟩
  | some p =>
    rw [close_eq_of_some hx] at hledger ⊢
    refine ⟨hledger, h.lawful.concat (h.live (Option.join_eq_some_iff.mp hx)),
      opened_update h (fun _ he => List.mem_append_left _ he) fun p hp => absurd hp (hnot p), fun y q hq => ?_⟩
    simp only [List.mem_append, List.mem_singleton, Prod.mk.injEq, reduceCtorEq, and_false, or_false] at hq
    exact h.made y q hq

theorem Client.Sound.init (h : s.Sound) (hx : s.conn x = some none) :
    Client.Sound
      { conn := Function.update s.conn x (some (some s.made))
        made := s.made + 1
        log := s.log ++ [(x, .mysql_init (some s.made)), (x, .use .connect (some s.made))] } := by
  have hfresh : ∀ y, (y, .mysql_init (some s.made)) ∉ s.log := fun y hy => Nat.lt_irrefl _ (h.made y _ hy)
  have hopen : ∀ y, (y, .mysql_close s.made) ∉ s.log := fun y hy => by
    have hcount := h.ledger.fresh s.made (Nat.le_refl _)
    exact List.count_eq_zero.mp hcount (mem_closed.mpr ⟨y, hy⟩)
  refine ⟨?_, ?_, ?_, fun y p hp => ?_⟩
  · have hledger := h.ledger.acquire (x := x) (by simp [Client.ledger, hx])
    simp only [Ledger.acquire, Client.ledger] at hledger
    simpa [Client.ledger, holds_update, Event.closed] using hledger
  · have hinit : Lawful Allowed (s.log ++ [(x, .mysql_init (some s.made))]) :=
      h.lawful.concat fun p hp y => by
        obtain rfl := Option.some.inj hp
        exact hfresh y
    have huse : Allowed (s.log ++ [(x, .mysql_init (some s.made))]) (x, .use .connect (some s.made)) :=
      ⟨s.made, rfl, by simp, fun y hy => hopen y (by simpa using hy)⟩
    simpa using hinit.concat huse
  · refine opened_update h (fun _ he => List.mem_append_left _ he) fun p hp => ?_
    obtain rfl := Option.some.inj (Option.some.inj hp)
    simp
  · simp only [List.mem_append, List.mem_cons, Prod.mk.injEq, Event.mysql_init.injEq, Option.some.injEq,
      reduceCtorEq, and_false, List.not_mem_nil, or_false] at hp
    rcases hp with hp | ⟨-, rfl⟩
    · exact Nat.lt_succ_of_lt (h.made y p hp)
    · exact Nat.lt_succ_self s.made

theorem Client.Sound.init_none (h : s.Sound) (x : Owner) : (s.record x (.mysql_init none)).Sound := by
  refine ⟨?_, h.lawful.concat fun p hp => (by cases hp), fun y p hy => ?_, fun y p hp => ?_⟩
  · simpa [Client.ledger, Client.record, Event.closed] using h.ledger
  · exact List.mem_append_left _ (h.opened y p hy)
  · simp only [Client.record, List.mem_append, List.mem_singleton, Prod.mk.injEq, Event.mysql_init.injEq,
      reduceCtorEq, and_false, or_false] at hp
    exact h.made y p hp

theorem conn_close (left : Option (Option Nat)) : (s.close x left).conn = Function.update s.conn x left := by
  unfold Client.close
  cases (s.conn x).join <;> rfl

theorem Client.Sound.connect (h : s.Sound) (inits : Bool) : (s.connect x inits).Sound := by
  have hclosed : (s.close x (some none)).Sound := h.close rfl
  unfold Client.connect
  cases inits with
  | true => exact hclosed.init (by rw [conn_close, Function.update_self])
  | false => exact hclosed.init_none x

theorem Client.Sound.call (h : s.Sound) (method : Method)
    (hx : method = .getErrorString ∨ ∃ p, s.conn x = some (some p)) : (s.call x method).Sound := by
  have hrecord : ∀ p, s.conn x = some (some p) → (s.record x (.use method (some p))).Sound := by
    intro p hp
    refine ⟨?_, h.lawful.concat ⟨p, rfl, h.live hp⟩, fun y q hy => ?_, fun y q hq => ?_⟩
    · simpa [Client.ledger, Client.record, Event.closed] using h.ledger
    · exact List.mem_append_left _ (h.opened y q hy)
    · simp only [Client.record, List.mem_append, List.mem_singleton, Prod.mk.injEq, reduceCtorEq, and_false,
        or_false] at hq
      exact h.made y q hq
  unfold Client.call
  cases hjoin : (s.conn x).join with
  | some p =>
    have hp : s.conn x = some (some p) := Option.join_eq_some_iff.mp hjoin
    cases method <;> exact hrecord p hp
  | none =>
    rcases hx with rfl | ⟨p, hp⟩
    · exact h
    · rw [hp] at hjoin
      cases hjoin

theorem Client.Sound.destroy (h : s.Sound) : (s.destroy x).Sound := h.close rfl

/-! ### What a method leaves -/

theorem conn_call (method : Method) : (s.call x method).conn = s.conn := by
  unfold Client.call
  split <;> rfl

theorem conn_connect (inits : Bool) : (s.connect x inits).conn =
    Function.update s.conn x (some (if inits then some (s.close x (some none)).made else none)) := by
  unfold Client.connect
  cases inits with
  | true => simp [conn_close]
  | false => exact conn_close _

theorem Client.Sound.calls (h : s.Sound) (hx : s.conn x = some (some p)) (methods : List Method) :
    (methods.foldl (fun s method => s.call x method) s).Sound ∧
      (methods.foldl (fun s method => s.call x method) s).conn = s.conn := by
  induction methods generalizing s with
  | nil => exact ⟨h, rfl⟩
  | cons method methods ih =>
    have hcall := h.call method (.inr ⟨p, hx⟩)
    have hconn := conn_call (s := s) (x := x) method
    obtain ⟨hsound, hconn'⟩ := ih hcall (by rw [hconn]; exact hx)
    exact ⟨hsound, hconn'.trans hconn⟩

end sound

/-! ### What a thread holds -/

/-- The object of a thread: there is none before it is made and once the thread has come to its end, and
it has a handle as long as the thread is in its loop. -/
def HoldingIn (conn : Option (Option Nat)) : Phase → Prop
  | .starting => conn = none
  | .connecting => conn = some none
  | .looping => ∃ p, conn = some (some p)
  | .leaving [] => conn = none
  | .leaving (_ :: _) => True

def Holding (t : Thread) (conn : Option (Option Nat)) : Prop :=
  if t.threw then conn = none else HoldingIn conn t.phase

section
variable {w : Worker} {sh sh' : Shared} {t t' : Thread} {s : Client} {a : Action} {inits : Bool}
  {conn : Option (Option Nat)}

theorem holding_threw (hthrew : t.threw = true) : Holding t conn ↔ conn = none := by
  unfold Holding
  rw [if_pos hthrew]

theorem holding_calm (hthrew : t.threw = false) : Holding t conn ↔ HoldingIn conn t.phase := by
  unfold Holding
  rw [if_neg (by simp [hthrew])]

theorem holding_joined (hjoined : t.Joined) (h : Holding t conn) : conn = none := by
  cases hthrew : t.threw with
  | true => exact (holding_threw hthrew).mp h
  | false =>
    rcases hjoined with hthrew' | hphase
    · rw [hthrew] at hthrew'
      cases hthrew'
    · rw [holding_calm hthrew, hphase] at h
      exact h

theorem holding_none (hjoined : t.Joined) : Holding t none := by
  cases hthrew : t.threw with
  | true => exact (holding_threw hthrew).mpr rfl
  | false =>
    rcases hjoined with hthrew' | hphase
    · rw [hthrew] at hthrew'
      cases hthrew'
    · rw [holding_calm hthrew, hphase]
      rfl

theorem joined_iff : (t.threw || t.phase == .leaving []) = true ↔ t.Joined := by
  rw [Bool.or_eq_true, beq_iff_eq]
  exact Iff.rfl

theorem holding_leaving {ops : List Op} (hphase : t.phase = .leaving ops) (hjoined : ¬ t.Joined) :
    Holding t conn := by
  cases hthrew : t.threw with
  | true => exact absurd (.inl hthrew) hjoined
  | false =>
    rw [holding_calm hthrew, hphase]
    cases ops with
    | nil => exact absurd (.inr hphase) hjoined
    | cons op ops => trivial

/-- What a step of a thread leaves of the objects: `x` is that of the thread. -/
structure Kept (x : Owner) (t' : Thread) (s s' : Client) : Prop where
  sound : s'.Sound
  other : ∀ y, y ≠ x → s'.conn y = s.conn y
  holding : ¬ t'.Joined → Holding t' (s'.conn x)

theorem Kept.refl (hsound : s.Sound) {x : Owner} (hholding : ¬ t'.Joined → Holding t' (s.conn x)) :
    Kept x t' s s := ⟨hsound, fun _ _ => rfl, hholding⟩

theorem kept_calls (hstep : t.step w a sh = some (sh', t')) (hsound : s.Sound)
    (hinits : ∀ errorString, a = .connect (some (true, errorString)) → inits = true)
    (h : Holding t (s.conn (.workerThread t.number))) :
    Kept (.workerThread t.number) t' s (databaseCalls w a inits t s) := by
  obtain ⟨hthrew, hmove⟩ := move_of_step hstep
  rw [holding_calm hthrew] at h
  -- the methods of a pass, whatever its end
  have hpass : ∀ answer, t.phase = .looping → ∃ p, s.conn (.workerThread t.number) = some (some p) ∧
      (databaseCalls w (.iterate answer) inits t s).Sound ∧
      (databaseCalls w (.iterate answer) inits t s).conn = s.conn := by
    intro answer hphase
    rw [hphase] at h
    obtain ⟨p, hp⟩ := h
    refine ⟨p, hp, ?_⟩
    simp only [databaseCalls, hphase]
    exact hsound.calls hp _
  cases hmove with
  | emptyList b hphase hempty =>
    simp only [databaseCalls, hphase, hempty, List.isEmpty_nil, Bool.true_or, if_true]
    exact .refl hsound (holding_leaving rfl)
  | created hphase =>
    have hnonempty : w.queryList.isEmpty = false := by
      by_contra hempty
      simp [Thread.step, hthrew, hphase, Bool.not_eq_false _ ▸ hempty] at hstep
    rw [hphase] at h
    simp only [databaseCalls, hphase, hnonempty, Bool.not_true, Bool.or_self, Bool.false_eq_true, if_false]
    refine ⟨hsound.createDbInstance h, fun y hy => Function.update_of_ne hy _ _, fun _ => ?_⟩
    refine (holding_calm ?_).mpr ?_
    · exact hthrew
    · exact Function.update_self _ _ _
  | connected errorString hphase =>
    obtain rfl := hinits errorString rfl
    simp only [databaseCalls, hphase]
    refine ⟨hsound.connect true, fun y hy => ?_, fun _ => ?_⟩
    · rw [conn_connect, Function.update_of_ne hy]
    · rw [conn_connect, Function.update_self]
      refine (holding_calm ?_).mpr ?_
      · exact hthrew
      · exact ⟨_, rfl⟩
  | refused errorString hphase =>
    simp only [databaseCalls, hphase]
    refine ⟨(hsound.connect inits).call _ (.inl rfl), fun y hy => ?_, holding_leaving rfl⟩
    rw [conn_call, conn_connect, Function.update_of_ne hy]
  | passed answer l hphase hr =>
    obtain ⟨p, hp, hcalls, hconn⟩ := hpass answer hphase
    refine ⟨hcalls, fun y _ => congrFun hconn y, fun _ => ?_⟩
    rw [hconn, hp]
    refine (holding_calm ?_).mpr ?_
    · exact hthrew
    · show HoldingIn (some (some p)) t.phase
      rw [hphase]
      exact ⟨p, rfl⟩
  | left answer l exit hphase _ hr =>
    obtain ⟨p, hp, hcalls, hconn⟩ := hpass answer hphase
    exact ⟨hcalls, fun y _ => congrFun hconn y, holding_leaving rfl⟩
  | operated b op ops hphase _ =>
    simp only [databaseCalls, hphase]
    exact .refl hsound (holding_leaving rfl)
  | startThrew hphase =>
    simp only [databaseCalls, hphase, Bool.not_false, Bool.or_true, if_true]
    exact .refl hsound fun hjoined => absurd (.inl rfl) hjoined
  | connectThrew hphase =>
    simp only [databaseCalls, hphase]
    refine ⟨hsound.connect inits, fun y hy => ?_, fun hjoined => absurd (.inl rfl) hjoined⟩
    rw [conn_connect, Function.update_of_ne hy]
  | loopThrew answer l hphase hr =>
    obtain ⟨p, hp, hcalls, hconn⟩ := hpass answer hphase
    exact ⟨hcalls, fun y _ => congrFun hconn y, fun hjoined => absurd (.inl rfl) hjoined⟩
  | operationThrew op ops hphase _ =>
    simp only [databaseCalls, hphase]
    exact .refl hsound fun hjoined => absurd (.inl rfl) hjoined

/-- What a step keeps: the object is destroyed where the thread has come to its end with it. -/
theorem kept_step (hstep : t.step w a sh = some (sh', t')) (hsound : s.Sound)
    (hinits : ∀ errorString, a = .connect (some (true, errorString)) → inits = true)
    (h : Holding t (s.conn (.workerThread t.number))) :
    (databaseStep w a inits t t' s).Sound ∧
      Holding t' ((databaseStep w a inits t t' s).conn (.workerThread t.number)) ∧
      ∀ y, y ≠ .workerThread t.number → (databaseStep w a inits t t' s).conn y = s.conn y := by
  obtain ⟨hcalls, hother, hholding⟩ := kept_calls hstep hsound hinits h
  unfold databaseStep
  dsimp only
  by_cases hjoined : t'.Joined
  · rw [if_pos (joined_iff.mpr hjoined)]
    have hconn : ((databaseCalls w a inits t s).destroy (.workerThread t.number)).conn =
        Function.update (databaseCalls w a inits t s).conn (.workerThread t.number) none := conn_close none
    refine ⟨hcalls.destroy, ?_, fun y hy => ?_⟩
    · rw [hconn, Function.update_self]
      exact holding_none hjoined
    · rw [hconn, Function.update_of_ne hy]
      exact hother y hy
  · rw [if_neg (mt joined_iff.mp hjoined)]
    exact ⟨hcalls, hholding hjoined, hother⟩

end

/-! ### The objects of a worker -/

/-- In every state of a run: the objects are those of the threads, each with what its thread holds. -/
structure Owned (c : Interleaving.Config (Shared × Client) Thread) : Prop where
  sound : c.shared.2.Sound
  holding : ∀ k t, c.locals[k]? = some t → t.number = k ∧ Holding t (c.shared.2.conn (.workerThread k))
  other : ∀ k, c.locals.length ≤ k → c.shared.2.conn (.workerThread k) = none
  tested : c.shared.2.conn .testConnection = none

section
variable {w : Worker} {schedule : List (Nat × Action × Bool)} {c : Interleaving.Config (Shared × Client) Thread}

theorem step_eq_some {a : Action × Bool} {sh sh' : Shared × Client} {t t' : Thread}
    (h : step w a sh t = some (sh', t')) :
    t.step w a.1 sh.1 = some (sh'.1, t') ∧ sh'.2 = databaseStep w a.1 a.2 t t' sh.2 ∧
      ∀ errorString, a.1 = .connect (some (true, errorString)) → a.2 = true := by
  unfold step at h
  split at h
  · cases h
  · rename_i a' inits hne
    obtain ⟨⟨s, u⟩, hstep, heq⟩ := Option.map_eq_some_iff.mp h
    obtain ⟨rfl, rfl⟩ := Prod.mk.inj heq
    refine ⟨hstep, rfl, fun errorString ha => ?_⟩
    cases inits with
    | true => rfl
    | false => exact (hne errorString ha rfl).elim

theorem owned_spawned (w : Worker) : Owned (spawned w) := by
  have hmade : (Client.empty.createDbInstance .testConnection).Sound := sound_empty.createDbInstance rfl
  have hconn : (testConnection true true .empty).1.conn = fun _ => none := by
    funext x
    cases x <;> rfl
  refine ⟨(hmade.connect true).destroy, fun k t ht => ?_, fun k _ => congrFun hconn _, congrFun hconn _⟩
  have ht' : (DbWorker.initial w.params.threads).locals[k]? = some t := ht
  rw [getElem?_initial] at ht'
  by_cases hk : k < w.params.threads
  · rw [if_pos hk] at ht'
    obtain rfl := Option.some.inj ht'
    exact ⟨rfl, congrFun hconn _⟩
  · rw [if_neg hk] at ht'
    cases ht'

theorem Owned.step (h : Owned c) {e : Nat × Action × Bool} {c' : Interleaving.Config (Shared × Client) Thread}
    (hnext : Interleaving.next (Mysql.step w) c e = some c') : Owned c' := by
  obtain ⟨t, sh', t', ht, hstep, rfl⟩ := Interleaving.next_eq_some.mp hnext
  obtain ⟨hthread, hclient, hinits⟩ := step_eq_some hstep
  obtain ⟨hnumber, hholding⟩ := h.holding e.1 t ht
  obtain ⟨hsound, hholding', hother⟩ := kept_step hthread h.sound hinits (by rw [hnumber]; exact hholding)
  rw [← hclient] at hsound hholding' hother
  rw [hnumber] at hholding' hother
  have hlt : e.1 < c.locals.length := (List.getElem?_eq_some_iff.mp ht).1
  refine ⟨hsound, fun k u hu => ?_, fun k hk => ?_, ?_⟩
  · by_cases hk : e.1 = k
    · rw [← hk, List.getElem?_set_self hlt] at hu
      obtain rfl := Option.some.inj hu
      rw [← hk]
      exact ⟨(number_step hthread).trans hnumber, hholding'⟩
    · rw [List.getElem?_set_ne hk] at hu
      rw [hother _ fun heq => hk (Owner.workerThread.inj heq).symm]
      exact h.holding k u hu
  · rw [List.length_set] at hk
    rw [hother _ fun heq => by cases heq; omega]
    exact h.other k hk
  · rw [hother _ fun heq => by cases heq]
    exact h.tested

/-- The threads of a run with their objects are those of the worker. -/
theorem run_threads (h : Interleaving.run (Mysql.step w) c schedule = some c') :
    Interleaving.run (Thread.step w) ⟨c.shared.1, c.locals⟩ (schedule.map fun e => (e.1, e.2.1)) =
      some ⟨c'.shared.1, c'.locals⟩ := by
  induction schedule generalizing c with
  | nil =>
    obtain rfl := Option.some.inj h
    rfl
  | cons e schedule ih =>
    obtain ⟨c₁, hnext, hrun⟩ := Interleaving.run_cons.mp h
    obtain ⟨t, sh', t', ht, hstep, rfl⟩ := Interleaving.next_eq_some.mp hnext
    refine Interleaving.run_cons.mpr ⟨⟨sh'.1, c.locals.set e.1 t'⟩, ?_, ih hrun⟩
    exact Interleaving.next_eq_some.mpr ⟨t, sh'.1, t', ht, (step_eq_some hstep).1, rfl⟩

theorem Owned.released (h : Owned c) (hjoined : ∀ t ∈ c.locals, t.Joined) (x : Owner) :
    c.shared.2.conn x = none := by
  cases x with
  | testConnection => exact h.tested
  | workerThread k =>
    by_cases hk : k < c.locals.length
    · have ht : c.locals[k]? = some c.locals[k] := List.getElem?_eq_getElem hk
      exact holding_joined (hjoined _ (List.getElem_mem hk)) (h.holding k _ ht).2
    · exact h.other k (by omega)

end

/-- **Connections of a worker.** In every run of its threads, whatever the server and `mysql_init` answer
and wherever an exception occurs: a handle is opened by one object, and only this object uses it and closes
it, once, and uses it only before it is closed; no method is called on a null `conn`. Once all threads have
come to their end, each handle that was opened has been closed. -/
theorem handles_closed_once (w : Worker) (schedule : List (Nat × Action × Bool))
    (c : Interleaving.Config (Shared × Client) Thread)
    (h : Interleaving.run (step w) (spawned w) schedule = some c) :
    spawnWorkerThreads w (schedule.map fun e => (e.1, e.2.1)) = some ⟨c.shared.1, c.locals⟩ ∧
      Lawful Allowed c.shared.2.log ∧
      ((∀ t ∈ c.locals, t.Joined) → ∀ x p, (x, .mysql_init (some p)) ∈ c.shared.2.log →
        c.shared.2.log.count (x, .mysql_close p) = 1) := by
  have howned : Owned c := Interleaving.run_invariant (I := Owned)
    (fun _ _ _ howned hnext => howned.step hnext) (owned_spawned w) h
  refine ⟨run_threads h, howned.sound.lawful, fun hjoined x p hinit => ?_⟩
  have hle : c.shared.2.log.count (x, .mysql_close p) ≤ 1 :=
    howned.sound.lawful.count_le_one fun before (hallowed : Allowed before (x, .mysql_close p)) => hallowed.2 x
  have hreleased := howned.sound.ledger.unheld p (howned.sound.made x p hinit) fun y hy => by
    simp [Client.ledger, howned.released hjoined y] at hy
  obtain ⟨y, hy⟩ := mem_closed.mp (List.count_pos_iff.mp (by omega : 0 < c.shared.2.ledger.released.count p))
  -- who closes a handle has opened it, and only one has
  obtain rfl : y = x := by
    obtain ⟨before, after, hlog⟩ := List.append_of_mem hy
    have hopened : (y, .mysql_init (some p)) ∈ c.shared.2.log := by
      rw [hlog]
      exact List.mem_append_left _ (howned.sound.lawful before _ after hlog).1
    have hsame := howned.sound.lawful.eq_of_mem hopened hinit (fun before hallowed => hallowed p rfl x)
      fun before hallowed => hallowed p rfl y
    exact (Prod.mk.inj hsame).1
  have hpos := List.count_pos_iff.mpr hy
  omega

/-- A query for each of two threads, whose statistics are logged. -/
def twoConnections : Worker :=
  { params := { threads := 2, queries_per_thread := 1, log_query_statistics := true }
    queryList := ["SELECT 1".toList] }

/-- The connection of the second thread is refused, where there is no memory for its handle. -/
def noHandleRun : List (Nat × Action × Bool) :=
  [(0, .start true, true), (1, .start true, true), (1, .connect (some (false, [])), false),
    (0, .connect (some (true, [])), true), (0, .iterate .quiet, true), (0, .iterate .quiet, true)] ++
    List.replicate 6 (1, .operate true, true) ++ List.replicate 3 (0, .operate true, true)

theorem handles_closed_once_two :
    ∃ c, Interleaving.run (step twoConnections) (spawned twoConnections) noHandleRun = some c ∧
      Lawful Allowed c.shared.2.log ∧ (.workerThread 0, .use .getWarningsCount (some 1)) ∈ c.shared.2.log ∧
      c.shared.2.log.count (.workerThread 0, .mysql_close 1) = 1 := by
  have hrun : (Interleaving.run (step twoConnections) (spawned twoConnections) noHandleRun).map (fun c =>
      (decide (∀ t ∈ c.locals, t.Joined), decide ((.workerThread 0, .mysql_init (some 1)) ∈ c.shared.2.log),
        decide ((.workerThread 0, .use .getWarningsCount (some 1)) ∈ c.shared.2.log))) =
      some (true, true, true) := by
    decide +kernel
  obtain ⟨c, hc, hfields⟩ := Option.map_eq_some_iff.mp hrun
  simp only [Prod.mk.injEq, decide_eq_true_eq] at hfields
  obtain ⟨hjoined, hinit, huse⟩ := hfields
  obtain ⟨-, hlawful, hclosed⟩ := handles_closed_once twoConnections noHandleRun c hc
  exact ⟨c, hc, hlawful, huse, hclosed hjoined _ 1 hinit⟩

end PQuery.Mysql
