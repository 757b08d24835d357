import GoSchedule.Lib.Slice
import GoSchedule.Types

/-!
# The clock of the tests

`FakeClock` stands still until it is advanced, and `After` hands out channels that fire when it passes
their deadlines.  A channel is sent to and closed under the lock of the clock: a send that finds no room
would block the clock for ever, and a second close would panic.

* `Chan`            a channel with room for one value;
* `fireDueLocked`   the loop, which filters the waiters in place;
* `fireDue_spec`    what it does to the waiters and to the channels;
* `Sound`           no waiter is due, and no two share a channel;
* `fired`           the first reading of the clock that is not before the deadline;
* `timers_exact`    **no call blocks or panics, and every channel is sent exactly that reading**, once,
  and is closed then, however the calls and the receives on the channels are mixed.

`Advance` takes any duration, so the clock can also go back.
-/

namespace GS.Schedtest
open Slice

inductive Fault where
  | blocked
  | sendOnClosed
  | closeOfClosed
deriving DecidableEq

/-- all that was sent, and how much of it was received -/
structure Chan where
  sent : List Time
  received : Nat
  closed : Bool

namespace Chan

def make : Chan := ⟨[], 0, false⟩

def send (c : Chan) (t : Time) : Except Fault Chan :=
  if c.closed then .error .sendOnClosed
  else if c.sent.length - c.received < 1 then .ok { c with sent := c.sent ++ [t] }
  else .error .blocked

def close (c : Chan) : Except Fault Chan :=
  if c.closed then .error .closeOfClosed else .ok { c with closed := true }

/-- a receive that finds nothing waits, or gets the zero time if the channel is closed -/
def receive (c : Chan) : Chan :=
  if c.received < c.sent.length then { c with received := c.received + 1 } else c

end Chan

structure Waiter where
  deadline : Time
  ch : Nat
deriving DecidableEq

/-- `made` channels have been handed out -/
structure FakeClock where
  now : Time
  waiters : List Waiter
  chans : Nat → Chan
  made : Nat

def newFakeClock (start : Time) : FakeClock := ⟨start, [], fun _ => .make, 0⟩

/-- the body of the loop: is the waiter kept? -/
def fire (now : Time) (chans : Nat → Chan) (w : Waiter) : Except Fault (Bool × (Nat → Chan)) :=
  if ¬ now < w.deadline then do
    let c ← (chans w.ch).send now
    let c ← c.close
    .ok (false, Function.update chans w.ch c)
  else .ok (true, chans)

def fireDueLocked (c : FakeClock) : Except Fault FakeClock := do
  let r ← inPlace (fire c.now) c.waiters c.chans
  .ok { c with waiters := r.1, chans := r.2 }

/-- the order of `sort.SliceStable` -/
def Before (a b : Waiter) : Prop := a.deadline ≤ b.deadline

instance : DecidableRel Before := fun a b => inferInstanceAs (Decidable (a.deadline ≤ b.deadline))

/-- `After` makes a channel and a waiter -/
def join (c : FakeClock) (w : Waiter) : FakeClock :=
  { c with
    waiters := (c.waiters ++ [w]).insertionSort Before
    chans := Function.update c.chans w.ch .make
    made := c.made + 1 }

def after (c : FakeClock) (d : Duration) : Except Fault FakeClock :=
  let c := join c ⟨c.now.add d, c.made⟩
  if d ≤ 0 then fireDueLocked c else .ok c

def advance (c : FakeClock) (d : Duration) : Except Fault FakeClock :=
  fireDueLocked { c with now := c.now.add d }

/-! ## calls -/

/-- `Sleep` is `After` and a receive -/
inductive Op where
  | after (d : Duration)
  | advance (d : Duration)
  | receive (ch : Nat)

def call (c : FakeClock) : Op → Except Fault FakeClock
  | .after d => after c d
  | .advance d => advance c d
  | .receive ch => .ok { c with chans := Function.update c.chans ch (c.chans ch).receive }

def run (c : FakeClock) : List Op → Except Fault FakeClock
  | [] => .ok c
  | op :: l => do run (← call c op) l

def Op.isAfter : Op → Bool
  | .after _ => true
  | _ => false

def tick (now : Time) : Op → Time
  | .advance d => now.add d
  | _ => now

/-- the reading after the calls -/
def reading (now : Time) (l : List Op) : Time := l.foldl tick now

/-- the first reading of an `Advance` that is not before the deadline -/
def firstReading (deadline : Time) : Time → List Op → Option Time
  | _, [] => none
  | now, .advance d :: l =>
    if deadline ≤ now.add d then some (now.add d) else firstReading deadline (now.add d) l
  | now, _ :: l => firstReading deadline now l

/-- what `After d` is sent, if it is called at `now` and the calls `l` follow -/
def fired (now : Time) (d : Duration) (l : List Op) : Option Time :=
  if d ≤ 0 then some now else firstReading (now.add d) now l

/-! ## the loop -/

/-- the channel of a waiter that has fired at `t` -/
def Chan.spent (t : Time) : Chan := ⟨[t], 0, true⟩

section
variable {now : Time} {chans : Nat → Chan}

theorem fire_kept {w : Waiter} (h : now < w.deadline) : fire now chans w = .ok (true, chans) :=
  if_neg (not_not.mpr h)

theorem fire_due {w : Waiter} (h : ¬ now < w.deadline) (hc : chans w.ch = .make) :
    fire now chans w = .ok (false, Function.update chans w.ch (.spent now)) := by
  rw [fire, if_pos h, hc]
  rfl

/-- waiters with channels of their own, to which nothing was sent -/
structure Fresh (W : List Waiter) (chans : Nat → Chan) : Prop where
  distinct : (W.map Waiter.ch).Nodup
  unused : ∀ w ∈ W, chans w.ch = .make

theorem sieve_fire (now : Time) {W : List Waiter} (F : Fresh W chans) :
    ∃ chans', sieve (fire now) W chans = .ok (W.filter (now < ·.deadline), chans') ∧
      (∀ w ∈ W, ¬ now < w.deadline → chans' w.ch = .spent now) ∧
      ∀ ch, (∀ w ∈ W, w.ch = ch → now < w.deadline) → chans' ch = chans ch := by
  induction W generalizing chans with
  | nil => exact ⟨chans, rfl, nofun, fun _ _ => rfl⟩
  | cons w W ih =>
    obtain ⟨hw, hW⟩ := List.nodup_cons.mp F.distinct
    have hne : ∀ v ∈ W, v.ch ≠ w.ch := fun v hv e => hw (List.mem_map.mpr ⟨v, hv, e⟩)
    by_cases hdue : now < w.deadline
    · have FW : Fresh W chans := ⟨hW, fun v hv => F.unused v (List.mem_cons_of_mem _ hv)⟩
      obtain ⟨chans', hs, hsent, hkept⟩ := ih FW
      refine ⟨chans', ?_, fun v hv hd => ?_, fun ch h => ?_⟩
      · rw [sieve_cons (fire_kept hdue), hs, List.filter_cons_of_pos (by simpa using hdue)]
        rfl
      · rcases List.mem_cons.mp hv with rfl | hv
        · exact absurd hdue hd
        · exact hsent v hv hd
      · exact hkept ch fun v hv => h v (List.mem_cons_of_mem _ hv)
    · have FW : Fresh W (Function.update chans w.ch (.spent now)) := by
        refine ⟨hW, fun v hv => ?_⟩
        rw [Function.update_of_ne (hne v hv)]
        exact F.unused v (List.mem_cons_of_mem _ hv)
      obtain ⟨chans', hs, hsent, hkept⟩ := ih FW
      refine ⟨chans', ?_, fun v hv hd => ?_, fun ch h => ?_⟩
      · rw [sieve_cons (fire_due hdue (F.unused w List.mem_cons_self)), hs,
          List.filter_cons_of_neg (by simpa using hdue)]
        rfl
      · rcases List.mem_cons.mp hv with rfl | hv
        · rw [hkept v.ch fun u hu e => absurd e (hne u hu), Function.update_self]
        · exact hsent v hv hd
      · have hch : ch ≠ w.ch := fun e => hdue (h w List.mem_cons_self e.symm)
        rw [hkept ch fun v hv => h v (List.mem_cons_of_mem _ hv), Function.update_of_ne hch]

end

section
variable {c c' : FakeClock}

/-- the due waiters are sent the time and leave; nothing else happens -/
theorem fireDue_spec (F : Fresh c.waiters c.chans) :
    ∃ c', fireDueLocked c = .ok c' ∧ c'.now = c.now ∧ c'.made = c.made ∧
      c'.waiters = c.waiters.filter (c.now < ·.deadline) ∧
      (∀ w ∈ c.waiters, ¬ c.now < w.deadline → c'.chans w.ch = .spent c.now) ∧
      ∀ ch, (∀ w ∈ c.waiters, w.ch = ch → c.now < w.deadline) → c'.chans ch = c.chans ch := by
  obtain ⟨chans', hs, hsent, hkept⟩ := sieve_fire c.now F
  refine ⟨{ c with waiters := c.waiters.filter (c.now < ·.deadline), chans := chans' }, ?_, rfl, rfl,
    rfl, hsent, hkept⟩
  rw [fireDueLocked, inPlace_eq, hs]
  rfl

/-! ## one call -/

structure Sound (c : FakeClock) : Prop where
  fresh : Fresh c.waiters c.chans
  known : ∀ w ∈ c.waiters, w.ch < c.made
  waiting : ∀ w ∈ c.waiters, c.now < w.deadline

/-- the timer with this deadline is waiting, or it has fired -/
def Shows (c : FakeClock) (ch : Nat) (deadline : Time) : Option Time → Prop
  | none => ⟨deadline, ch⟩ ∈ c.waiters
  | some t => (c.chans ch).sent = [t] ∧ (c.chans ch).closed = true

/-- a call does to every timer what it should, and no more -/
structure Follows (c : FakeClock) (op : Op) (c' : FakeClock) : Prop where
  sound : Sound c'
  now : c'.now = tick c.now op
  made : c'.made = c.made + (if op.isAfter then 1 else 0)
  shows : ∀ ch deadline o, ch < c.made → Shows c ch deadline o →
    Shows c' ch deadline (o.or (firstReading deadline c.now [op]))

theorem fresh_filter {W : List Waiter} {chans chans' : Nat → Chan} (F : Fresh W chans) (p : Waiter → Bool)
    (h : ∀ w ∈ W, p w = true → chans' w.ch = chans w.ch) : Fresh (W.filter p) chans' := by
  refine ⟨F.distinct.sublist (List.filter_sublist.map _), fun w hw => ?_⟩
  obtain ⟨hW, hp⟩ := List.mem_filter.mp hw
  rw [h w hW hp, F.unused w hW]

/-- the loop leaves no waiter that is due -/
theorem fireDue_sound (F : Fresh c.waiters c.chans) (hknown : ∀ w ∈ c.waiters, w.ch < c.made) :
    ∃ c', fireDueLocked c = .ok c' ∧ Sound c' ∧ c'.now = c.now ∧ c'.made = c.made ∧
      (∀ w ∈ c.waiters, w.deadline ≤ c.now → c'.chans w.ch = .spent c.now) ∧
      (∀ w ∈ c.waiters, c.now < w.deadline → w ∈ c'.waiters) ∧
      ∀ ch, c.chans ch ≠ .make → c'.chans ch = c.chans ch := by
  obtain ⟨c', hc', hnow, hmade, hwaiters, hsent, hkept⟩ := fireDue_spec F
  have hmem : ∀ w, w ∈ c'.waiters ↔ w ∈ c.waiters ∧ c.now < w.deadline := by
    intro w
    rw [hwaiters, List.mem_filter, decide_eq_true_eq]
  have hself : ∀ w ∈ c.waiters, c.now < w.deadline → c'.chans w.ch = c.chans w.ch := by
    intro w hw hd
    refine hkept w.ch fun v hv e => ?_
    rw [List.inj_on_of_nodup_map F.distinct hv hw e]
    exact hd
  refine ⟨c', hc', ⟨?_, fun w hw => ?_, fun w hw => ?_⟩, hnow, hmade,
    fun w hw hle => hsent w hw (not_lt.mpr hle), fun w hw hlt => (hmem w).mpr ⟨hw, hlt⟩, fun ch hne => ?_⟩
  · rw [hwaiters]
    exact fresh_filter F _ fun w hw hd => hself w hw (of_decide_eq_true hd)
  · rw [hmade]
    exact hknown w ((hmem w).mp hw).1
  · rw [hnow]
    exact ((hmem w).mp hw).2
  · exact hkept ch fun w hw e => absurd (e ▸ F.unused w hw) hne

theorem ne_make_of_closed {ch : Nat} (h : (c.chans ch).closed = true) : c.chans ch ≠ .make := by
  intro e
  rw [e] at h
  cases h

theorem advance_follows (S : Sound c) (d : Duration) :
    ∃ c', advance c d = .ok c' ∧ Follows c (.advance d) c' := by
  obtain ⟨c', hc', S', hnow, hmade, hdue, hleft, hkept⟩ :=
    fireDue_sound (c := { c with now := c.now.add d }) S.fresh S.known
  refine ⟨c', hc', S', hnow, hmade, fun ch deadline o _ h => ?_⟩
  cases o with
  | none =>
    show Shows c' ch deadline (if deadline ≤ c.now.add d then some (c.now.add d) else none)
    split
    · rename_i hle
      have hspent : c'.chans ch = .spent (c.now.add d) := hdue _ h hle
      show (c'.chans ch).sent = _ ∧ (c'.chans ch).closed = true
      rw [hspent]
      exact ⟨rfl, rfl⟩
    · rename_i hlt
      exact hleft _ h (not_le.mp hlt)
  | some t =>
    show (c'.chans ch).sent = _ ∧ (c'.chans ch).closed = true
    rw [hkept ch (ne_make_of_closed h.2)]
    exact h

theorem receive_follows (S : Sound c) (ch : Nat) :
    ∃ c', call c (.receive ch) = .ok c' ∧ Follows c (.receive ch) c' := by
  have hsame : ∀ k, Chan.sent (Function.update c.chans ch (c.chans ch).receive k) = (c.chans k).sent ∧
      Chan.closed (Function.update c.chans ch (c.chans ch).receive k) = (c.chans k).closed := by
    intro k
    by_cases e : k = ch
    · rw [e, Function.update_self, Chan.receive]
      split <;> exact ⟨rfl, rfl⟩
    · rw [Function.update_of_ne e]
      exact ⟨rfl, rfl⟩
  refine ⟨_, rfl, ⟨⟨S.fresh.distinct, fun w hw => ?_⟩, S.known, S.waiting⟩, rfl, rfl,
    fun k deadline o _ h => ?_⟩
  · show Function.update c.chans ch (c.chans ch).receive w.ch = .make
    by_cases e : w.ch = ch
    · rw [← e, Function.update_self, S.fresh.unused w hw]
      rfl
    · rw [Function.update_of_ne e]
      exact S.fresh.unused w hw
  · cases o with
    | none => exact h
    | some t => exact ⟨(hsame k).1.trans h.1, (hsame k).2.trans h.2⟩

theorem mem_join {w v : Waiter} : v ∈ (join c w).waiters ↔ v ∈ c.waiters ∨ v = w := by
  unfold join
  rw [List.mem_insertionSort, List.mem_append, List.mem_singleton]

theorem join_fresh (S : Sound c) {w : Waiter} (hw : w.ch = c.made) :
    Fresh (join c w).waiters (join c w).chans ∧ ∀ v ∈ (join c w).waiters, v.ch < (join c w).made := by
  have hold : ∀ v ∈ c.waiters, v.ch ≠ w.ch := fun v hv => hw ▸ (S.known v hv).ne
  refine ⟨⟨?_, fun v hv => ?_⟩, fun v hv => ?_⟩
  · have hperm : (join c w).waiters.Perm (c.waiters ++ [w]) := List.perm_insertionSort _ _
    refine (hperm.map Waiter.ch).nodup_iff.mpr ?_
    rw [List.map_append]
    refine List.nodup_append.mpr ⟨S.fresh.distinct, List.nodup_singleton _, fun a ha b hb e => ?_⟩
    obtain ⟨v, hv, rfl⟩ := List.mem_map.mp ha
    exact hold v hv (e.trans (List.mem_singleton.mp hb))
  · show Function.update c.chans w.ch .make v.ch = .make
    rcases mem_join.mp hv with h | rfl
    · rw [Function.update_of_ne (hold v h)]
      exact S.fresh.unused v h
    · exact Function.update_self _ _ _
  · rcases mem_join.mp hv with h | rfl
    · exact Nat.lt_succ_of_lt (S.known v h)
    · exact hw ▸ Nat.lt_succ_self _

/-- the timers that were there before keep their channels -/
theorem join_chans {w : Waiter} {ch : Nat} (hw : w.ch = c.made) (hch : ch < c.made) :
    (join c w).chans ch = c.chans ch := Function.update_of_ne (hw ▸ hch.ne) _ _

theorem add_le_self {now : Time} {d : Duration} : now.add d ≤ now ↔ d ≤ 0 := by
  rw [Int64.le_iff_toInt_le]
  exact add_le_iff_nonpos_right now

/-- **`After`**: it fires at once exactly if the duration is not positive. -/
theorem after_follows (S : Sound c) (d : Duration) :
    ∃ c', after c d = .ok c' ∧ Follows c (.after d) c' ∧
      Shows c' c.made (c.now.add d) (if d ≤ 0 then some c.now else none) := by
  obtain ⟨F, hknown⟩ := join_fresh S (w := ⟨c.now.add d, c.made⟩) rfl
  have hnew : (⟨c.now.add d, c.made⟩ : Waiter) ∈ (join c ⟨c.now.add d, c.made⟩).waiters :=
    mem_join.mpr (Or.inr rfl)
  unfold after
  by_cases hd : d ≤ 0
  · obtain ⟨c', hc', S', hnow, hmade, hdue, hleft, hkept⟩ := fireDue_sound F hknown
    refine ⟨c', (if_pos hd).trans hc', ⟨S', hnow, hmade, fun ch deadline o hch h => ?_⟩, ?_⟩
    · cases o with
      | none => exact hleft _ (mem_join.mpr (Or.inl h)) (S.waiting _ h)
      | some t =>
        have hsame := join_chans (c := c) (w := ⟨c.now.add d, c.made⟩) rfl hch
        show (c'.chans ch).sent = _ ∧ (c'.chans ch).closed = true
        rw [hkept ch (ne_make_of_closed (hsame ▸ h.2)), hsame]
        exact h
    · have hspent : c'.chans c.made = .spent c.now := hdue _ hnew (add_le_self.mpr hd)
      rw [if_pos hd]
      show (c'.chans c.made).sent = _ ∧ (c'.chans c.made).closed = true
      rw [hspent]
      exact ⟨rfl, rfl⟩
  · refine ⟨_, if_neg hd, ⟨⟨F, hknown, fun w hw => ?_⟩, rfl, rfl, fun ch deadline o hch h => ?_⟩, ?_⟩
    · rcases mem_join.mp hw with h | rfl
      · exact S.waiting w h
      · exact not_le.mp fun h => hd (add_le_self.mp h)
    · cases o with
      | none => exact mem_join.mpr (Or.inl h)
      | some t =>
        show (Chan.sent _) = _ ∧ Chan.closed _ = true
        rw [join_chans rfl hch]
        exact h
    · rw [if_neg hd]
      exact hnew

theorem call_follows (S : Sound c) (op : Op) : ∃ c', call c op = .ok c' ∧ Follows c op c' := by
  cases op with
  | after d =>
    obtain ⟨c', hc', F, _⟩ := after_follows S d
    exact ⟨c', hc', F⟩
  | advance d => exact advance_follows S d
  | receive ch => exact receive_follows S ch

/-! ## runs -/

theorem firstReading_cons (deadline now : Time) (op : Op) (l : List Op) :
    firstReading deadline now (op :: l) =
      (firstReading deadline now [op]).or (firstReading deadline (tick now op) l) := by
  cases op with
  | after d => rfl
  | receive ch => rfl
  | advance d =>
    simp only [firstReading, tick]
    split <;> rfl

theorem run_append {l l' : List Op} : run c (l ++ l') = run c l >>= fun c => run c l' := by
  induction l generalizing c with
  | nil => rfl
  | cons op l ih =>
    show (call c op >>= fun c => run c (l ++ l')) = (call c op >>= fun c => run c l) >>= _
    cases call c op with
    | error e => rfl
    | ok c' => exact ih

/-- what a run does to the timers that are there -/
theorem run_follows (S : Sound c) (l : List Op) :
    ∃ c', run c l = .ok c' ∧ Sound c' ∧ c'.now = reading c.now l ∧ c'.made = c.made + l.countP Op.isAfter ∧
      ∀ ch deadline o, ch < c.made → Shows c ch deadline o →
        Shows c' ch deadline (o.or (firstReading deadline c.now l)) := by
  induction l generalizing c with
  | nil => exact ⟨c, rfl, S, rfl, rfl, fun ch deadline o _ h => by simpa [firstReading] using h⟩
  | cons op l ih =>
    obtain ⟨c₁, hc₁, F⟩ := call_follows S op
    obtain ⟨c', hc', S', hnow, hmade, hshows⟩ := ih F.sound
    refine ⟨c', ?_, S', ?_, ?_, fun ch deadline o hch h => ?_⟩
    · show (call c op >>= fun c => run c l) = _
      rw [hc₁]
      exact hc'
    · rw [hnow, F.now]
      rfl
    · rw [hmade, F.made, List.countP_cons]
      omega
    · have hch₁ : ch < c₁.made := by
        rw [F.made]
        omega
      have h' := hshows ch deadline _ hch₁ (F.shows ch deadline o hch h)
      rw [F.now, Option.or_assoc, ← firstReading_cons] at h'
      exact h'

theorem sound_new (start : Time) : Sound (newFakeClock start) := ⟨⟨List.nodup_nil, nofun⟩, nofun, nofun⟩

end

/-- **Every timer fires exactly once, with the first reading that is not before its deadline**, and no
call ever blocks or panics. -/
theorem timers_exact (start : Time) (l₁ : List Op) (d : Duration) (l₂ : List Op) :
    ∃ c, run (newFakeClock start) (l₁ ++ .after d :: l₂) = .ok c ∧
      (c.chans (l₁.countP Op.isAfter)).sent = (fired (reading start l₁) d l₂).toList ∧
      (c.chans (l₁.countP Op.isAfter)).closed = (fired (reading start l₁) d l₂).isSome := by
  obtain ⟨c₁, hc₁, S₁, hnow, hmade, _⟩ := run_follows (sound_new start) l₁
  obtain ⟨c₂, hc₂, F, hnew⟩ := after_follows S₁ d
  obtain ⟨c, hc, S, _, _, hshows⟩ := run_follows F.sound l₂
  have hch : c₁.made < c₂.made := by
    rw [F.made]
    exact Nat.lt_succ_self _
  have h := hshows _ _ _ hch hnew
  have hmade : c₁.made = l₁.countP Op.isAfter := hmade.trans (Nat.zero_add _)
  have hnow₂ : c₂.now = reading start l₁ := F.now.trans hnow
  have ho : (if d ≤ 0 then some c₁.now else none).or (firstReading (c₁.now.add d) c₂.now l₂) =
      fired (reading start l₁) d l₂ := by
    rw [hnow₂, hnow, fired]
    split <;> rfl
  rw [ho, hmade] at h
  refine ⟨c, ?_, ?_⟩
  · rw [run_append, hc₁]
    show (call c₁ (.after d) >>= fun c => run c l₂) = _
    rw [show call c₁ (.after d) = .ok c₂ from hc₂]
    exact hc
  · cases hf : fired (reading start l₁) d l₂ with
    | none =>
      rw [hf] at h
      have hmake : c.chans (l₁.countP Op.isAfter) = .make := S.fresh.unused _ h
      rw [hmake]
      exact ⟨rfl, rfl⟩
    | some t =>
      rw [hf] at h
      exact h

-- the clock jumps over two deadlines, and the second timer is received before the first
example : (run (newFakeClock 0) [.after 20, .after 10, .advance 5, .advance 30, .receive 1, .receive 0,
      .after (-1)]).toOption.map (fun c => (List.range 3).map fun ch => (c.chans ch).sent) =
    some [[35], [35], [35]] := by decide +kernel

end GS.Schedtest
