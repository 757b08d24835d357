import GoSchedule.Lib.Trace
import GoSchedule.Scheduler.Life

/-!
# Typed payloads

The helpers of `codec.go`: a value is encoded where it is dispatched and decoded in front of the
handler.  In between it is the payload of a job, which is stored, claimed, retried and moved.

* `Codec`             `Encode`, `Decode` into a fresh variable, and `Name`;
* `dispatchTyped`     the payload, and the options with the name of the codec added at their end;
* `Scheduler.nowTyped`, `atTyped`, `afterTyped`, `everyTyped`, `cronTyped`   the calls, all by `typed`;
* `TypedHandler`, `invoke`   what `RegisterTyped` registers.  `ω` is what a handler sees of the world;
* `Sends R id name v a`   the move `a` saves a job with this ID and name for the value `v`:
  `atTyped_sends`, `everyTyped_sends`, `cronTyped_sends`;
* `typed_delivered`   **a handler is called with the value that was dispatched under the ID of its job,
  and its decoder never fails**, if codecs round-trip and every job is dispatched with the codec that its
  handler was registered with.
-/

namespace GS
open Mem Trans

structure Codec (V : Type) where
  encode : V → Except String (List UInt8)
  decode : List UInt8 → Except String V
  name : String

/-- decoding gives back what was encoded -/
def Codec.RoundTrips {V : Type} (c : Codec V) : Prop :=
  ∀ v payload, c.encode v = .ok payload → c.decode payload = .ok v

def dispatchTyped {V : Type} (codec : Codec V) (payload : V) (opts : List JobOption) :
    Except String (List JobOption × List UInt8) :=
  match codec.encode payload with
  | .error err => .error ("encode " ++ codec.name ++ ": " ++ err)
  | .ok data => .ok (opts ++ [.withCodec codec.name], data)

inductive TypedErr where
  | encode (text : String)
  | api (err : ApiErr)
deriving DecidableEq, Repr

/-- an encoded payload handed to one of the calls -/
def typed {V α : Type} (codec : Codec V) (payload : V) (opts : List JobOption)
    (call : List UInt8 → List JobOption → Except ApiErr α) : Except TypedErr α :=
  match dispatchTyped codec payload opts with
  | .error err => .error (.encode err)
  | .ok (opts, data) =>
    match call data opts with
    | .error err => .error (.api err)
    | .ok r => .ok r

namespace Scheduler
variable {V : Type} (sc : Scheduler)

def nowTyped (now now' : Time) (uuid : JobID) (s : Mem.Store) (name : String) (codec : Codec V)
    (payload : V) (opts : List JobOption) : Except TypedErr (Mem.Store × JobID × List Event) :=
  typed codec payload opts (sc.now now now' uuid s name)

def atTyped (now t : Time) (uuid : JobID) (s : Mem.Store) (name : String) (codec : Codec V)
    (payload : V) (opts : List JobOption) : Except TypedErr (Mem.Store × JobID × List Event) :=
  typed codec payload opts (sc.at now t uuid s name)

def afterTyped (now now' : Time) (d : Duration) (uuid : JobID) (s : Mem.Store) (name : String)
    (codec : Codec V) (payload : V) (opts : List JobOption) :
    Except TypedErr (Mem.Store × JobID × List Event) :=
  typed codec payload opts (sc.after now now' d uuid s name)

def everyTyped (now : Time) (d : Duration) (uuid : JobID) (s : Mem.Store) (name : String)
    (codec : Codec V) (payload : V) (opts : List JobOption) :
    Except TypedErr (Mem.Store × JobID × List Event) :=
  typed codec payload opts (sc.every now d uuid s name)

def cronTyped (parse : String → Except String Schedule) (now : Time) (expr : String) (uuid : JobID)
    (s : Mem.Store) (name : String) (codec : Codec V) (payload : V) (opts : List JobOption) :
    Except TypedErr (Mem.Store × JobID × List Event) :=
  typed codec payload opts (sc.cron parse now expr uuid s name)

end Scheduler

/-- the codec and the handler that `RegisterTyped` is called with -/
structure TypedHandler (ω : Type) where
  V : Type
  codec : Codec V
  handler : ω → V → HandlerResult

namespace TypedHandler
variable {ω : Type} (T : TypedHandler ω)

/-- the handler that it registers -/
def invoke (w : ω) (payload : List UInt8) : HandlerResult :=
  match T.codec.decode payload with
  | .error err => .error ("decode " ++ T.codec.name ++ ": " ++ err)
  | .ok v => T.handler w v

/-- a payload and the name of a codec that stand for `v` -/
def Carries (v : T.V) (payload : List UInt8) (codecName : String) : Prop :=
  T.codec.encode v = .ok payload ∧ codecName = T.codec.name

theorem invoke_of_decode {v : T.V} {payload : List UInt8} (h : T.codec.decode payload = .ok v) (w : ω) :
    T.invoke w payload = T.handler w v := by
  unfold invoke
  rw [h]

end TypedHandler

/-! ## the calls -/

theorem dispatchTyped_ok {V : Type} {codec : Codec V} {v : V} {opts opts' : List JobOption}
    {data : List UInt8} (h : dispatchTyped codec v opts = .ok (opts', data)) :
    codec.encode v = .ok data ∧ opts' = opts ++ [.withCodec codec.name] := by
  unfold dispatchTyped at h
  split at h
  · cases h
  · rename_i e
    obtain ⟨rfl, rfl⟩ := Prod.mk.inj (Except.ok.inj h)
    exact ⟨e, rfl⟩

theorem typed_ok {V α : Type} {codec : Codec V} {v : V} {opts : List JobOption}
    {call : List UInt8 → List JobOption → Except ApiErr α} {r : α}
    (h : typed codec v opts call = .ok r) : ∃ data opts',
      dispatchTyped codec v opts = .ok (opts', data) ∧ call data opts' = .ok r := by
  unfold typed at h
  split at h
  · cases h
  · rename_i opts' data e
    split at h
    · cases h
    · rename_i e'
      obtain rfl := Except.ok.inj h
      exact ⟨data, opts', e, e'⟩

/-- options leave the payload alone, and the last one of them sets the codec -/
theorem foldl_withCodec (j : Job) (opts : List JobOption) (c : String) :
    ((opts ++ [JobOption.withCodec c]).foldl JobOption.apply j).payload = j.payload ∧
      ((opts ++ [JobOption.withCodec c]).foldl JobOption.apply j).codecName = c := by
  rw [List.foldl_append]
  refine ⟨?_, rfl⟩
  show (opts.foldl JobOption.apply j).payload = j.payload
  induction opts generalizing j with
  | nil => rfl
  | cons o opts ih => cases o <;> exact ih _

/-- the move saves a job for the value `v` -/
def Sends {ω : Type} (R : String → TypedHandler ω) (id : JobID) (name : String) (v : (R name).V) :
    Label → Prop
  | .schedule _ _ uuid name' payload opts' =>
    uuid = id ∧ name' = name ∧ ∃ opts, dispatchTyped (R name).codec v opts = .ok (opts', payload)
  | .fire spec uuid _ _ => uuid = id ∧ spec.name = name ∧ (R name).Carries v spec.payload spec.codecName
  | .save j => j.id = id ∧ j.name = name ∧ (R name).Carries v j.payload j.codecName
  | _ => False

/-- every job is dispatched with the codec that the handler of its name was registered with -/
def TypedMove {ω : Type} (R : String → TypedHandler ω) (a : Label) : Prop :=
  ∀ j, a.job = some j → ∃ v, Sends R j.id j.name v a

section
variable {ω : Type} {R : String → TypedHandler ω}

theorem sends_carries {a : Label} {j : Job} (hj : a.job = some j) {v : (R j.name).V}
    (h : Sends R j.id j.name v a) : (R j.name).Carries v j.payload j.codecName := by
  cases a with
  | save k =>
    obtain rfl := Option.some.inj hj
    exact h.2.2
  | schedule now t uuid name payload opts' =>
    obtain ⟨_, _, opts, h⟩ := h
    obtain ⟨henc, hopts⟩ := dispatchTyped_ok h
    replace hj := Option.some.inj hj
    unfold Scheduler.atJob at hj
    rw [hopts] at hj
    obtain ⟨h1, h2⟩ := foldl_withCodec _ opts (R j.name).codec.name
    rw [hj] at h1 h2
    exact ⟨h1.symm ▸ henc, h2⟩
  | fire spec uuid now fireAt =>
    obtain rfl := Option.some.inj hj
    exact h.2.2
  | _ => cases hj

/-- a schedule that `EveryTyped` or `CronTyped` stores carries the value -/
theorem buildRecurringSpec_carries {name : String} {v : (R name).V} {opts opts' : List JobOption}
    {data : List UInt8} (h : dispatchTyped (R name).codec v opts = .ok (opts', data)) (uuid : JobID) :
    (R name).Carries v (Scheduler.buildRecurringSpec uuid name data opts').payload
      (Scheduler.buildRecurringSpec uuid name data opts').codecName := by
  obtain ⟨henc, rfl⟩ := dispatchTyped_ok h
  exact ⟨henc, (foldl_withCodec _ opts (R name).codec.name).2⟩

/-- `AtTyped`, and so `NowTyped` and `AfterTyped`, is a move that sends the value -/
theorem atTyped_sends {sc : Scheduler} {now t : Time} {uuid : JobID} {st : Mem.Store} {name : String}
    {v : (R name).V} {opts : List JobOption} {r : Mem.Store × JobID × List Event}
    (h : sc.atTyped now t uuid st name (R name).codec v opts = .ok r) : ∃ data opts',
      Sends R uuid name v (.schedule now t uuid name data opts') ∧
        sc.at now t uuid st name data opts' = .ok r := by
  obtain ⟨data, opts', hd, hc⟩ := typed_ok h
  exact ⟨data, opts', ⟨rfl, rfl, opts, hd⟩, hc⟩

/-- every fire of the schedule that `EveryTyped` stores sends the value -/
theorem everyTyped_sends {sc : Scheduler} {now : Time} {d : Duration} {uuid : JobID} {st : Mem.Store}
    {name : String} {v : (R name).V} {opts : List JobOption} {r : Mem.Store × JobID × List Event}
    (h : sc.everyTyped now d uuid st name (R name).codec v opts = .ok r) : ∃ spec,
      r.1 = st.upsertRecurring spec ∧
        ∀ id u fireAt, Sends R id name v (.fire spec id u fireAt) := by
  obtain ⟨data, opts', hd, hc⟩ := typed_ok h
  unfold Scheduler.every at hc
  split at hc
  · cases hc
  · split at hc
    · cases hc
    · rw [← Except.ok.inj hc]
      exact ⟨_, rfl, fun _ _ _ => ⟨rfl, rfl, buildRecurringSpec_carries hd uuid⟩⟩

theorem cronTyped_sends {sc : Scheduler} {parse : String → Except String Schedule} {now : Time}
    {expr : String} {uuid : JobID} {st : Mem.Store} {name : String} {v : (R name).V}
    {opts : List JobOption} {r : Mem.Store × JobID × List Event}
    (h : sc.cronTyped parse now expr uuid st name (R name).codec v opts = .ok r) : ∃ spec,
      r.1 = st.upsertRecurring spec ∧
        ∀ id u fireAt, Sends R id name v (.fire spec id u fireAt) := by
  obtain ⟨data, opts', hd, hc⟩ := typed_ok h
  unfold Scheduler.cron at hc
  split at hc
  · cases hc
  · split at hc
    · cases hc
    · rw [← Except.ok.inj hc]
      exact ⟨_, rfl, fun _ _ _ => ⟨rfl, rfl, buildRecurringSpec_carries hd uuid⟩⟩

/-! ## whole runs -/

/-- every record carries a value that a move sent under its ID -/
def Delivered (R : String → TypedHandler ω) (l : List Label) (s : Sys) : Prop :=
  ∀ id j, s.store.jobs id = some j →
    ∃ a ∈ l, ∃ v, Sends R id j.name v a ∧ (R j.name).Carries v j.payload j.codecName

theorem delivered_step {l : List Label} {s t : Sys} {a : Label} (v : SysInv s)
    (D : Delivered R l s) (ha : TypedMove R a) (h : step s a = some t) : Delivered R (l ++ [a]) t := by
  intro id k hk
  -- a record that was there before has the name, the payload and the codec that it had
  have hold : ∀ j, s.store.jobs id = some j → k.name = j.name → k.payload = j.payload →
      k.codecName = j.codecName →
      ∃ b ∈ l ++ [a], ∃ v, Sends R id k.name v b ∧ (R k.name).Carries v k.payload k.codecName := by
    intro j hj h1 h2 h3
    obtain ⟨b, hb, v, hs, hc⟩ := D id j hj
    rw [h1, h2, h3]
    exact ⟨b, List.mem_append_left _ hb, v, hs, hc⟩
  cases step_life v.ledger h id with
  | same record => exact hold k (record.symm.trans hk) rfl rfl rfl
  | saved j label hid fresh pending record =>
    obtain rfl := Option.some.inj (record.symm.trans hk)
    subst hid
    obtain ⟨v, hv⟩ := ha j label
    exact ⟨a, List.mem_append_right _ (List.mem_singleton.mpr rfl), v, hv, sends_carries label hv⟩
  | claimed j q now label old pending queue due record =>
    obtain rfl := Option.some.inj (record.symm.trans hk)
    exact hold j old rfl rfl rfl
  | finished j q i x w d label slot job call old claimed record =>
    rw [record] at hk
    cases hcall : d.call with
    | ack i =>
      rw [hcall] at hk
      cases hk
    | fail i msg u =>
      rw [hcall] at hk
      simp only [StoreCall.record, afterFail] at hk
      split at hk
      · cases hk
      · obtain rfl := Option.some.inj hk
        exact hold j old rfl rfl rfl
  | cancelled j label old pending record => cases record.symm.trans hk
  | rescheduled j u label old pending record =>
    obtain rfl := Option.some.inj (record.symm.trans hk)
    exact hold j old rfl rfl rfl

end

/-- **Typed payloads arrive.** -/
theorem typed_delivered {ω : Type} (R : String → TypedHandler ω)
    (hR : ∀ name, (R name).codec.RoundTrips) (sc : Scheduler) (l : List Label) (s : Sys)
    (h : run step (Sys.init sc) l = some s) (hl : ∀ a ∈ l, TypedMove R a) (q : String) (i : Nat)
    (j : Job) (hj : (s.workers q)[i]? = some (.running j)) :
    ∃ a ∈ l, ∃ v, Sends R j.id j.name v a ∧ j.codecName = (R j.name).codec.name ∧
      (R j.name).codec.decode j.payload = .ok v ∧
      ∀ w, (R j.name).invoke w j.payload = (R j.name).handler w v := by
  have hinv : SysInv s ∧ ((∀ a ∈ l, TypedMove R a) → Delivered R l s) := by
    refine run_induct (P := fun l s => SysInv s ∧ ((∀ a ∈ l, TypedMove R a) → Delivered R l s))
      ⟨init_inv sc, fun _ _ _ h => (nomatch h)⟩ ?_ h
    intro l s a t _ ih ht
    refine ⟨step_inv ih.1 ht, fun hl => ?_⟩
    have hD := ih.2 fun b hb => hl b (List.mem_append_left _ hb)
    exact delivered_step ih.1 hD (hl a (List.mem_append_right _ (List.mem_singleton.mpr rfl))) ht
  obtain ⟨v, hD⟩ := hinv
  have hrec := (v.ledger.mem q j).mp (mem_held_of_worker (List.mem_of_getElem? hj) rfl)
  obtain ⟨a, ha, x, hs, hc⟩ := hD hl j.id j hrec.1
  have hdecode := hR j.name x j.payload hc.1
  exact ⟨a, ha, x, hs, hc.2, hdecode, (R j.name).invoke_of_decode hdecode⟩

/-- one byte for a number below 256 -/
def byteCodec : Codec Nat where
  encode := fun n => if n < 256 then .ok [UInt8.ofNat n] else .error "too large"
  decode := fun
    | [b] => .ok b.toNat
    | _ => .error "not one byte"
  name := "byte"

/-- fails for the number 7 -/
def byteHandler : TypedHandler Unit := ⟨Nat, byteCodec, fun _ n => if n = 7 then .error "seven" else .ok⟩

/-- a value that is dispatched with `AtTyped`, and tried a second time -/
def typedRun : List Label :=
  [.schedule 0 0 "id" "job" [7] [.withCodec "other", .withCodec "byte"], .claim "default" 0,
    .send "default", .receive "default" 0, .lookup "default" 0,
    .finish "default" 0 ⟨byteHandler.invoke () [7], 0, 0, 0⟩, .claim "default" 0, .send "default",
    .receive "default" 0, .lookup "default" 0]

theorem byteCodec_roundTrips : byteCodec.RoundTrips := by
  intro n payload h
  simp only [byteCodec] at h
  split at h
  · rename_i hlt
    obtain rfl := Except.ok.inj h
    show Except.ok (UInt8.ofNat n).toNat = _
    rw [UInt8.toNat_ofNat_of_lt' hlt]
  · cases h

theorem typed_delivered_twice : ∃ s j, run step (Sys.init oneHandler) typedRun = some s ∧
    (s.workers "default")[0]? = some (.running j) ∧ j.attempt = 1 ∧
    ∃ a ∈ typedRun, ∃ v, Sends (fun _ => byteHandler) j.id j.name v a ∧
      j.codecName = byteHandler.codec.name ∧ byteHandler.codec.decode j.payload = .ok v ∧
      ∀ w, byteHandler.invoke w j.payload = byteHandler.handler w v := by
  refine ⟨_, _, rfl, rfl, rfl, ?_⟩
  refine typed_delivered (fun _ => byteHandler) (fun _ => byteCodec_roundTrips) oneHandler typedRun _ rfl
    (fun a ha j hj => ?_) "default" 0 _ rfl
  rcases List.mem_cons.mp ha with rfl | ha
  · obtain rfl := Option.some.inj hj
    exact ⟨(7 : Nat), rfl, rfl, [.withCodec "other"], rfl⟩
  · have hnone : ∀ b ∈ typedRun.tail, b.job = none := by decide
    cases (hnone a ha).symm.trans hj

end GS
