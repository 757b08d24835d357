import GoSchedule.Lib.Progress
import GoSchedule.Postgres.Listen
import GoSchedule.Types

/-!
# Is a listener woken for every job?

`Save` commits the row and then notifies, on a connection of its own; both can fall between any steps of
others.  A listener has a goroutine that takes notifications from its connection and puts signals into
`C`, which has room for one: a second signal is dropped.  The reader of `C` polls the store after each
signal that it receives.

* `Listener`, `Act`, `act`   a listener with its reader, and what the two do on their own;
* `Move`, `step`   `Listen`, the two statements of `Save`, `Close` and a connection that is lost;
* `Owes p L`       the reader has polled since the save number `p`, or it will;
* `Turn`, `step_turn`   all that a step can do to a listener;
* `notified_polled`   **whatever is dropped, the reader polls after every notified save**: the goroutine
  and the reader come to rest after a bounded number of moves, and then it has.

`saved` and `polled` are written and read by no code: the saves that have committed, each known by its
place in the list, and how many of them had when the reader last polled.  The error of `pg_notify` is
dropped by `Save`.
-/

namespace GS.Postgres.Wake
open Trans

/-- the goroutine of `Listen`: in `WaitForNotification`, before the `select`, returned -/
inductive Pump where
  | waiting
  | signalling
  | done
deriving DecidableEq

inductive Reader where
  | waiting
  | polling
deriving DecidableEq

/-- `queue` is what `Listen` was called with, `channel` what the server has read from its statement -/
structure Listener where
  queue : Bytes
  channel : Bytes
  pending : Nat
  pump : Pump
  signals : Nat
  reader : Reader
  cancelled : Bool
  lost : Bool
  polled : Nat

namespace Listener

def start (queue channel : Bytes) : Listener :=
  ⟨queue, channel, 0, .waiting, 0, .waiting, false, false, 0⟩

/-- the server notifies a channel -/
def hear (channel : Bytes) (L : Listener) : Listener :=
  if L.channel = channel then { L with pending := L.pending + 1 } else L

inductive Act where
  | take
  | fail
  | signal
  | receive
  | poll

/-- `WaitForNotification` returns a notification, or an error if its context is cancelled or the
connection is lost -/
def act (saved : Nat) (L : Listener) : Act → Option Listener
  | .take =>
    match L.pump, L.pending with
    | .waiting, n + 1 => some { L with pending := n, pump := .signalling }
    | _, _ => none
  | .fail =>
    if L.pump = .waiting ∧ (L.cancelled ∨ L.lost) then some { L with pump := .done } else none
  | .signal =>
    if L.pump = .signalling then
      some { L with pump := .waiting, signals := if L.signals < 1 then L.signals + 1 else L.signals }
    else none
  | .receive =>
    match L.reader, L.signals with
    | .waiting, n + 1 => some { L with signals := n, reader := .polling }
    | _, _ => none
  | .poll => if L.reader = .polling then some { L with reader := .waiting, polled := saved } else none

end Listener

/-- `saving` are the saves that have committed and not notified -/
structure Sys where
  saved : List Job
  saving : List Nat
  listeners : List Listener

def Sys.init : Sys := ⟨[], [], []⟩

def Sys.set (s : Sys) (i : Nat) (L : Listener) : Sys := { s with listeners := s.listeners.set i L }

inductive Move where
  | listen (queue : Bytes)
  | upsert (j : Job)
  | notify (k : Nat) (ok : Bool)
  | cancel (i : Nat)
  | lose (i : Nat)
  | own (i : Nat) (a : Listener.Act)

def step (s : Sys) : Move → Option Sys
  | .listen queue =>
    (parseListen (listenSQL queue)).map fun r =>
      { s with listeners := s.listeners ++ [.start queue r.1] }
  | .upsert j => some { s with saved := s.saved ++ [j], saving := s.saving ++ [s.saved.length] }
  | .notify k ok =>
    (s.saving[k]?.bind fun p => s.saved[p]?).map fun j =>
      { s with
        saving := s.saving.eraseIdx k
        listeners :=
          if ok then s.listeners.map (Listener.hear (notifyChannel (bytes j.queue))) else s.listeners }
  | .cancel i => s.listeners[i]?.map fun L => s.set i { L with cancelled := true }
  | .lose i => s.listeners[i]?.map fun L => s.set i { L with lost := true }
  | .own i a => s.listeners[i]?.bind fun L => (L.act s.saved.length a).map (s.set i)

/-- a move of the goroutine or the reader of the listener `i` -/
def Own (i : Nat) (a : Move) : Prop := ∃ x, a = .own i x

/-! ## one listener -/

def Owes (p : Nat) (L : Listener) : Prop :=
  p < L.polled ∨ 0 < L.pending ∨ L.pump = .signalling ∨ 0 < L.signals ∨ L.reader = .polling

/-- how many moves are left, at most -/
def Listener.work (L : Listener) : Nat :=
  4 * L.pending + (match L.pump with | .waiting => 1 | .signalling => 4 | .done => 0) + 2 * L.signals +
    (match L.reader with | .waiting => 0 | .polling => 1)

structure Listener.Good (L : Listener) : Prop where
  channel : L.channel = notifyChannel L.queue
  room : L.signals ≤ 1
  ended : L.pump = .done → L.cancelled ∨ L.lost

/-- what `act` can do -/
inductive Acts (saved : Nat) (L : Listener) : Listener → Prop
  | take (n : Nat) (pump : L.pump = .waiting) (pending : L.pending = n + 1) :
    Acts saved L { L with pending := n, pump := .signalling }
  | fail (pump : L.pump = .waiting) (why : L.cancelled ∨ L.lost) : Acts saved L { L with pump := .done }
  | signal (pump : L.pump = .signalling) : Acts saved L { L with pump := .waiting, signals := 1 }
  | receive (n : Nat) (reader : L.reader = .waiting) (signals : L.signals = n + 1) :
    Acts saved L { L with signals := n, reader := .polling }
  | poll (reader : L.reader = .polling) : Acts saved L { L with reader := .waiting, polled := saved }

section
variable {saved p : Nat} {L M : Listener}

theorem act_acts {a : Listener.Act} (G : L.Good) (h : L.act saved a = some M) : Acts saved L M := by
  cases a with
  | take =>
    simp only [Listener.act] at h
    split at h
    · rename_i n hp hn
      cases h
      exact .take n hp hn
    · cases h
  | fail =>
    obtain ⟨⟨hp, hw⟩, e⟩ := Option.ite_none_right_eq_some.mp h
    cases e
    exact .fail hp hw
  | signal =>
    obtain ⟨hp, e⟩ := Option.ite_none_right_eq_some.mp h
    have hone : (if L.signals < 1 then L.signals + 1 else L.signals) = 1 := by
      have := G.room
      split <;> omega
    rw [hone] at e
    cases e
    exact .signal hp
  | receive =>
    simp only [Listener.act] at h
    split at h
    · rename_i n hr hn
      cases h
      exact .receive n hr hn
    · cases h
  | poll =>
    obtain ⟨hr, e⟩ := Option.ite_none_right_eq_some.mp h
    cases e
    exact .poll hr

theorem Acts.good (h : Acts saved L M) (G : L.Good) : M.Good := by
  cases h with
  | take n hp hn => exact ⟨G.channel, G.room, nofun⟩
  | fail hp hw => exact ⟨G.channel, G.room, fun _ => hw⟩
  | signal hp => exact ⟨G.channel, le_rfl, nofun⟩
  | receive n hr hn => exact ⟨G.channel, by have := G.room; show n ≤ 1; omega, G.ended⟩
  | poll hr => exact ⟨G.channel, G.room, G.ended⟩

theorem Acts.work_lt (h : Acts saved L M) (G : L.Good) : M.work < L.work := by
  have hroom := G.room
  cases h with
  | take n hp hn =>
    simp only [Listener.work, hp, hn]
    omega
  | fail hp hw =>
    simp only [Listener.work, hp]
    omega
  | signal hp =>
    simp only [Listener.work, hp]
    omega
  | receive n hr hn =>
    simp only [Listener.work, hr, hn]
    omega
  | poll hr =>
    simp only [Listener.work, hr]
    omega

/-- a notification becomes a signal, the signal is received, and the reader polls -/
theorem Acts.owes (h : Acts saved L M) (hj : p < saved) (H : Owes p L) : Owes p M := by
  cases h with
  | take n hp hn => exact Or.inr (Or.inr (Or.inl rfl))
  | fail hp hw =>
    rcases H with h | h | h | h
    · exact Or.inl h
    · exact Or.inr (Or.inl h)
    · rw [hp] at h
      cases h
    · exact Or.inr (Or.inr (Or.inr h))
  | signal hp => exact Or.inr (Or.inr (Or.inr (Or.inl Nat.one_pos)))
  | receive n hr hn => exact Or.inr (Or.inr (Or.inr (Or.inr rfl)))
  | poll hr => exact Or.inl hj

/-- nothing is left to do -/
theorem idle_spec (h : ∀ a, L.act saved a = none) :
    L.signals = 0 ∧ L.reader = .waiting ∧
      (L.pump = .waiting ∧ L.pending = 0 ∧ ¬ (L.cancelled ∨ L.lost) ∨ L.pump = .done) := by
  have hreader : L.reader = .waiting := by
    cases e : L.reader with
    | waiting => rfl
    | polling => exact absurd (h .poll) (by simp [Listener.act, e])
  have hsignals : L.signals = 0 := by
    cases e : L.signals with
    | zero => rfl
    | succ n => exact absurd (h .receive) (by simp [Listener.act, hreader, e])
  refine ⟨hsignals, hreader, ?_⟩
  cases e : L.pump with
  | signalling => exact absurd (h .signal) (by simp [Listener.act, e])
  | done => exact Or.inr rfl
  | waiting =>
    refine Or.inl ⟨rfl, ?_, fun hw => absurd (h .fail) (by simp [Listener.act, e, hw])⟩
    cases en : L.pending with
    | zero => rfl
    | succ n => exact absurd (h .take) (by simp [Listener.act, e, en])

theorem Owes.polled (H : Owes p L) (hsignals : L.signals = 0) (hreader : L.reader = .waiting)
    (hpump : L.pump = .waiting) (hpending : L.pending = 0) : p < L.polled := by
  rcases H with h | h | h | h | h
  · exact h
  · rw [hpending] at h
    cases h
  · rw [hpump] at h
    cases h
  · rw [hsignals] at h
    cases h
  · rw [hreader] at h
    cases h

end

/-! ## all of them -/

/-- what a step can do to a listener -/
inductive Turn (saved : Nat) (L : Listener) : Listener → Prop
  | same : Turn saved L L
  | heard : Turn saved L { L with pending := L.pending + 1 }
  | cancelled : Turn saved L { L with cancelled := true }
  | lost : Turn saved L { L with lost := true }
  | acts {M : Listener} (h : Acts saved L M) : Turn saved L M

theorem Turn.good {saved : Nat} {L M : Listener} (h : Turn saved L M) (G : L.Good) : M.Good := by
  cases h with
  | same => exact G
  | heard => exact ⟨G.channel, G.room, G.ended⟩
  | cancelled => exact ⟨G.channel, G.room, fun _ => Or.inl rfl⟩
  | lost => exact ⟨G.channel, G.room, fun _ => Or.inr rfl⟩
  | acts h => exact h.good G

theorem Turn.owes {saved p : Nat} {L M : Listener} (h : Turn saved L M) (hp : p < saved)
    (H : Owes p L) : Owes p M := by
  cases h with
  | same => exact H
  | heard => exact Or.inr (Or.inl (Nat.succ_pos _))
  | cancelled => exact H
  | lost => exact H
  | acts h => exact h.owes hp H

structure Inv (s : Sys) : Prop where
  committed : ∀ p ∈ s.saving, p < s.saved.length
  good : ∀ L ∈ s.listeners, L.Good

section
variable {s t : Sys} {a : Move} {i p : Nat} {L M : Listener}

theorem good_of_get (V : Inv s) (h : s.listeners[i]? = some L) : L.Good :=
  V.good L (List.mem_of_getElem? h)

/-- a listener is written: this one, or another -/
theorem set_turn {saved k : Nat} {N : Listener} (hL : s.listeners[i]? = some L)
    (hk : s.listeners[k]? = some N) (h : Turn saved N M) :
    ∃ L', (s.set k M).listeners[i]? = some L' ∧ Turn saved L L' := by
  by_cases e : k = i
  · subst e
    obtain rfl := Option.some.inj (hL.symm.trans hk)
    exact ⟨M, (List.getElem?_set_self (List.getElem?_eq_some_iff.mp hL).1), h⟩
  · exact ⟨L, (List.getElem?_set_ne e).trans hL, .same⟩

theorem step_turn (V : Inv s) (h : step s a = some t) (hL : s.listeners[i]? = some L) :
    ∃ M, t.listeners[i]? = some M ∧ Turn s.saved.length L M := by
  cases a with
  | listen queue =>
    obtain ⟨r, _, rfl⟩ := Option.map_eq_some_iff.mp h
    exact ⟨L, List.getElem?_append_left (List.getElem?_eq_some_iff.mp hL).1 ▸ hL, .same⟩
  | upsert j =>
    cases h
    exact ⟨L, hL, .same⟩
  | notify k ok =>
    obtain ⟨j, _, rfl⟩ := Option.map_eq_some_iff.mp h
    cases ok with
    | false => exact ⟨L, hL, .same⟩
    | true =>
      refine ⟨L.hear (notifyChannel (bytes j.queue)), ?_, ?_⟩
      · show (s.listeners.map _)[i]? = _
        rw [List.getElem?_map, hL]
        rfl
      · unfold Listener.hear
        split
        · exact .heard
        · exact .same
  | cancel k =>
    obtain ⟨N, hN, rfl⟩ := Option.map_eq_some_iff.mp h
    exact set_turn hL hN .cancelled
  | lose k =>
    obtain ⟨N, hN, rfl⟩ := Option.map_eq_some_iff.mp h
    exact set_turn hL hN .lost
  | own k x =>
    obtain ⟨N, hN, h⟩ := Option.bind_eq_some_iff.mp h
    obtain ⟨N', hact, rfl⟩ := Option.map_eq_some_iff.mp h
    exact set_turn hL hN (.acts (act_acts (good_of_get V hN) hact))

/-- the saves that have committed only grow, and a listener that is new has its channel -/
theorem step_rest (h : step s a = some t) :
    s.saved.length ≤ t.saved.length ∧ (∀ p ∈ t.saving, p ∈ s.saving ∨ p < t.saved.length) ∧
    ∀ (i : Nat) (L : Listener), t.listeners[i]? = some L → s.listeners[i]? = none → L.Good := by
  have hset : ∀ (k : Nat) (N : Listener) (i : Nat) (L : Listener),
      (s.set k N).listeners[i]? = some L → s.listeners[i]? = none → L.Good := by
    intro k N i L hL hnone
    have hlt := (List.getElem?_eq_some_iff.mp hL).1
    rw [Sys.set, List.length_set] at hlt
    exact absurd hlt (not_lt.mpr (List.getElem?_eq_none_iff.mp hnone))
  cases a with
  | listen queue =>
    obtain ⟨r, hr, rfl⟩ := Option.map_eq_some_iff.mp h
    refine ⟨le_rfl, fun _ h => Or.inl h, fun i L hL hnone => ?_⟩
    rw [parseListen_listenSQL] at hr
    obtain rfl := Option.some.inj hr
    rw [List.getElem?_append_right (List.getElem?_eq_none_iff.mp hnone)] at hL
    obtain rfl := List.mem_singleton.mp (List.mem_of_getElem? hL)
    exact ⟨rfl, Nat.zero_le _, nofun⟩
  | upsert j =>
    cases h
    refine ⟨?_, fun p h => ?_, fun i L hL hnone => ?_⟩
    · simp
    · refine (List.mem_append.mp h).imp_right fun h => ?_
      rw [List.mem_singleton.mp h]
      simp
    · rw [hnone] at hL
      cases hL
  | notify k ok =>
    obtain ⟨j, _, rfl⟩ := Option.map_eq_some_iff.mp h
    refine ⟨le_rfl, fun _ h => Or.inl (List.mem_of_mem_eraseIdx h), fun i L hL hnone => ?_⟩
    cases ok with
    | false =>
      have hL : s.listeners[i]? = some L := hL
      rw [hnone] at hL
      cases hL
    | true =>
      have hL : (s.listeners.map _)[i]? = some L := hL
      rw [List.getElem?_map, hnone] at hL
      cases hL
  | cancel k =>
    obtain ⟨N, hN, rfl⟩ := Option.map_eq_some_iff.mp h
    exact ⟨le_rfl, fun _ h => Or.inl h, hset k _⟩
  | lose k =>
    obtain ⟨N, hN, rfl⟩ := Option.map_eq_some_iff.mp h
    exact ⟨le_rfl, fun _ h => Or.inl h, hset k _⟩
  | own k x =>
    obtain ⟨N, hN, h⟩ := Option.bind_eq_some_iff.mp h
    obtain ⟨N', _, rfl⟩ := Option.map_eq_some_iff.mp h
    exact ⟨le_rfl, fun _ h => Or.inl h, hset k _⟩

theorem step_inv (V : Inv s) (h : step s a = some t) : Inv t := by
  obtain ⟨hsaved, hsaving, hnew⟩ := step_rest h
  refine ⟨fun p hp => (hsaving p hp).elim (fun h => (V.committed p h).trans_le hsaved) id, fun M hM => ?_⟩
  obtain ⟨i, hi⟩ := List.mem_iff_getElem?.mp hM
  cases e : s.listeners[i]? with
  | none => exact hnew i M hi e
  | some L =>
    obtain ⟨M', hM', ht⟩ := step_turn V h e
    obtain rfl := Option.some.inj (hi.symm.trans hM')
    exact ht.good (good_of_get V e)

theorem init_inv : Inv .init := ⟨nofun, nofun⟩

/-- `Save` notifies the channel of the listener -/
theorem notify_owes {k : Nat} {j : Job} (V : Inv s) (hp : s.saving[k]? = some p)
    (hj : s.saved[p]? = some j) (hL : s.listeners[i]? = some L) (hq : L.queue = bytes j.queue)
    (h : step s (.notify k true) = some t) : ∃ M, t.listeners[i]? = some M ∧ Owes p M := by
  obtain ⟨j', hj', rfl⟩ := Option.map_eq_some_iff.mp h
  rw [hp, Option.bind_some, hj] at hj'
  obtain rfl := Option.some.inj hj'
  have hchannel : L.channel = notifyChannel (bytes j.queue) := by rw [(good_of_get V hL).channel, hq]
  refine ⟨{ L with pending := L.pending + 1 }, ?_, Or.inr (Or.inl (Nat.succ_pos _))⟩
  show (s.listeners.map _)[i]? = _
  rw [List.getElem?_map, hL]
  exact congrArg some (if_pos hchannel)

/-- the save has committed, and its listener owes it a poll -/
structure Due (i p : Nat) (s : Sys) : Prop where
  inv : Inv s
  saved : p < s.saved.length
  owes : ∃ L, s.listeners[i]? = some L ∧ Owes p L

theorem Due.step (D : Due i p s) (h : step s a = some t) : Due i p t := by
  obtain ⟨L, hL, H⟩ := D.owes
  obtain ⟨M, hM, ht⟩ := step_turn D.inv h hL
  exact ⟨step_inv D.inv h, D.saved.trans_le (step_rest h).1, M, hM, ht.owes D.saved H⟩

def workOf (i : Nat) (s : Sys) : Nat := (s.listeners[i]?.map Listener.work).getD 0

theorem own_lowers (D : Due i p s) (ha : Own i a) (h : Wake.step s a = some t) :
    workOf i t < workOf i s := by
  obtain ⟨x, rfl⟩ := ha
  obtain ⟨L, hL, h⟩ := Option.bind_eq_some_iff.mp h
  obtain ⟨M, hact, rfl⟩ := Option.map_eq_some_iff.mp h
  have G := good_of_get D.inv hL
  have hM : (s.set i M).listeners[i]? = some M :=
    List.getElem?_set_self (List.getElem?_eq_some_iff.mp hL).1
  rw [workOf, workOf, hM, hL]
  exact (act_acts G hact).work_lt G

end

/-- **No save that was notified is missed by its listener**, in any interleaving of any number of `Save`s
and listeners: from every later state, the goroutine and the reader have a bounded number of moves; when
they have none left, then the goroutine has returned, if the listener was closed or lost its connection,
and otherwise the reader has polled after the save. -/
theorem notified_polled (l₁ l₂ l₃ : List Move) (s₁ s t : Sys) (k p i : Nat) (j : Job) (L₁ : Listener)
    (h₁ : run step .init l₁ = some s₁) (hp : s₁.saving[k]? = some p) (hj : s₁.saved[p]? = some j)
    (hL₁ : s₁.listeners[i]? = some L₁) (hq : L₁.queue = bytes j.queue)
    (h₂ : run step s₁ (.notify k true :: l₂) = some s)
    (hown : ∀ a ∈ l₃, Own i a) (h₃ : run step s l₃ = some t) :
    l₃.length ≤ workOf i s ∧
    ((∀ a, Own i a → step t a = none) →
      ∃ L, t.listeners[i]? = some L ∧
        if L.cancelled ∨ L.lost then L.pump = .done else p < L.polled) := by
  have V : Inv s₁ := run_keep (fun _ _ _ V h => step_inv V h) init_inv h₁
  obtain ⟨s₂, hs₂, h₂⟩ := run_cons.mp h₂
  have D₂ : Due i p s₂ := ⟨step_inv V hs₂,
    (V.committed p (List.mem_of_getElem? hp)).trans_le (step_rest hs₂).1, notify_owes V hp hj hL₁ hq hs₂⟩
  have D : Due i p s := run_keep (P := Due i p) (fun _ _ _ D h => D.step h) D₂ h₂
  obtain ⟨Dt, hle⟩ := length_le_of_lowers (P := Due i p) (I := Own i) (μ := workOf i)
    (fun _ _ _ D ha h => ⟨D.step h, own_lowers D ha h⟩) hown D h₃
  refine ⟨le_trans (Nat.le_add_right _ _) hle, fun hnone => ?_⟩
  obtain ⟨L, hL, H⟩ := Dt.owes
  have hidle : ∀ a, L.act t.saved.length a = none := by
    intro a
    have h : t.listeners[i]?.bind (fun L => (L.act t.saved.length a).map (t.set i)) = none :=
      hnone (.own i a) ⟨a, rfl⟩
    rw [hL, Option.bind_some] at h
    exact Option.map_eq_none_iff.mp h
  obtain ⟨hsignals, hreader, ⟨hpump, hpending, hopen⟩ | hdone⟩ := idle_spec hidle
  · exact ⟨L, hL, (if_neg hopen).mpr (H.polled hsignals hreader hpump hpending)⟩
  · exact ⟨L, hL, (if_pos ((good_of_get Dt.inv hL).ended hdone)).mpr hdone⟩

def welcome : Job := { id := "1", name := "welcome", queue := "mail" }

/-- one job is saved twice for one listener, and the first save is notified -/
def twoSaves : List Move :=
  [.listen (bytes "mail"), .upsert welcome, .upsert welcome, .notify 0 true]

/-- the second signal is dropped -/
def dropped : List Move := [.own 0 .take, .own 0 .signal, .own 0 .take, .own 0 .signal]

def reads : List Move := [.own 0 .receive, .own 0 .poll]

def Sys.idle (s : Sys) (i : Nat) : Bool :=
  [.take, .fail, .signal, .receive, .poll].all fun x => (step s (.own i x)).isNone

theorem notified_polled_dropped : ∃ t L,
    run step .init (twoSaves ++ .notify 0 true :: (dropped ++ reads)) = some t ∧
      t.listeners[0]? = some L ∧ 1 < L.polled := by
  have h₁ : (run step .init twoSaves).map
      (fun s => ((s.saving[0]?, s.saved[1]?), s.listeners[0]?.map Listener.queue)) =
      some ((some 1, some welcome), some (bytes "mail")) := by decide +kernel
  have hall : (run step .init (twoSaves ++ .notify 0 true :: (dropped ++ reads))).map
      (fun t => (t.idle 0, t.listeners[0]?.map fun L => decide (L.cancelled ∨ L.lost))) =
      some (true, some false) := by decide +kernel
  obtain ⟨s₁, h₁, e₁⟩ := Option.map_eq_some_iff.mp h₁
  obtain ⟨hpj, hq⟩ := Prod.mk.injEq .. ▸ e₁
  obtain ⟨hp, hj⟩ := Prod.mk.injEq .. ▸ hpj
  obtain ⟨L₁, hL₁, hq⟩ := Option.map_eq_some_iff.mp hq
  obtain ⟨t, ht, e⟩ := Option.map_eq_some_iff.mp hall
  obtain ⟨hidle, hopen⟩ := Prod.mk.injEq .. ▸ e
  obtain ⟨s₁', h₁', h⟩ := run_append.mp ht
  obtain rfl := Option.some.inj (h₁.symm.trans h₁')
  have h : run step s₁ ((.notify 0 true :: dropped) ++ reads) = some t := h
  obtain ⟨s, h₂, h₃⟩ := run_append.mp h
  have hnone : ∀ a, Own 0 a → step t a = none := by
    rintro _ ⟨x, rfl⟩
    have hx := List.all_eq_true.mp hidle x (by cases x <;> simp)
    exact Option.isNone_iff_eq_none.mp hx
  have hown : ∀ a ∈ reads, Own 0 a := List.forall_mem_cons.mpr
    ⟨⟨_, rfl⟩, List.forall_mem_singleton.mpr ⟨_, rfl⟩⟩
  obtain ⟨L, hL, hL'⟩ := (notified_polled twoSaves dropped reads s₁ s t 0 1 0 welcome L₁ h₁ hp hj hL₁ hq h₂
    hown h₃).2 hnone
  rw [hL] at hopen
  rw [if_neg (of_decide_eq_false (Option.some.inj hopen))] at hL'
  exact ⟨t, L, ht, hL, hL'⟩

end GS.Postgres.Wake
