import GoSchedule.Lib.MapOn
import GoSchedule.Redis.Basic

/-!
# The keys of the Redis store, and the two scripts with a loop

* `pendingKey_inj`, `jobKey_inj`, `claimedKey_ne`   no two sets or hashes share a key;
* `claimBuckets_eq`   the claim script takes the first `n` of what the buckets hold, one bucket after
  the other;
* `dueIDs q now`   the IDs that a claim can give: the due members of the four buckets.
  `claim_ids`: the script gives the first `n` of them;
* `countedIDs q`   the IDs that `QueueSize` counts;
* `claim_maps`, `recoverStale_maps`   **what one pass of the loop does to a table, the whole script does
  to the table at all the IDs that it works on**.  `I db T` is any relation of a server and a table.
-/

namespace GS.Redis
open Decimal MapOn

variable {ρ : Scores}

/-! ## numbers -/

/-- the number that stands for an instant -/
def stamp (t : Time) : Int := if t = zeroTime then 0 else unixNano t

theorem formatTime_eq (t : Time) : formatTime t = itoa (stamp t) := by
  unfold formatTime stamp
  split
  · decide
  · rfl

theorem number_itoa (n : Int) : ρ.number (itoa n) = ρ.ofInt n := by
  rw [Scores.number, parse_itoa]
  rfl

theorem atoi_byte (p : UInt8) : UInt8.ofInt (atoi (itoa p.toNat)).toInt = p := by
  unfold atoi
  rw [parse_itoa]
  revert p
  decide +kernel

theorem atoi_itoa (n : Int64) : atoi (itoa n.toInt) = n := by
  rw [atoi, parse_itoa]
  show (if n.toInt < Int64.minValue.toInt then _ else if Int64.maxValue.toInt < n.toInt then _ else
    Int64.ofInt n.toInt) = n
  rw [if_neg (not_lt.mpr (Int64.minValue_le_toInt n)), if_neg (not_lt.mpr (Int64.toInt_le n)),
    Int64.ofInt_toInt]

theorem stringToBytes_bytesToString (bs : List UInt8) : stringToBytes (bytesToString bs) = bs := by
  have hb : ∀ b : UInt8, UInt8.ofNat (Char.ofNat b.toNat).toNat = b := by decide +kernel
  rw [stringToBytes, bytesToString, String.toList_ofList, List.map_map]
  exact (List.map_congr_left fun b _ => hb b).trans (List.map_id bs)

theorem itoa_byte_inj {p p' : UInt8} (h : itoa (p.toNat : Int) = itoa p'.toNat) : p = p' :=
  UInt8.toNat_inj.mp (Int.ofNat_inj.mp (itoa_injective h))

/-! ## keys -/

theorem append_left_cancel {a b c : String} (h : a ++ b = a ++ c) : b = c := by
  have h' := congrArg String.toList h
  rw [String.toList_append, String.toList_append] at h'
  exact String.toList_injective (List.append_cancel_left h')

theorem jobKey_inj {a b : JobID} (h : jobKey a = jobKey b) : a = b := append_left_cancel h

theorem pendingKey_eq (q : String) (p : Priority) :
    pendingKey q p = (keyPrefix ++ "pending:") ++ ((q ++ ":") ++ String.singleton 'p' ++
      itoa p.toNat) := by
  have hp : ":p" = ":" ++ String.singleton 'p' := by decide
  unfold pendingKey
  rw [hp]
  simp only [String.append_assoc]

theorem pendingKey_inj {q q' : String} {p p' : Priority} (h : pendingKey q p = pendingKey q' p') :
    q = q' ∧ p = p' := by
  rw [pendingKey_eq, pendingKey_eq] at h
  obtain ⟨h1, h2⟩ := append_itoa_inj (by decide) (by decide) (append_left_cancel h)
  refine ⟨?_, UInt8.toNat_inj.mp (Int.ofNat_inj.mp h2)⟩
  have h' := congrArg String.toList h1
  rw [String.toList_append, String.toList_append] at h'
  exact String.toList_injective (List.append_cancel_right h')

theorem claimedKey_ne (q : String) (p : Priority) : claimedKey ≠ pendingKey q p := by
  intro h
  have h' : keyPrefix ++ "claimed" = keyPrefix ++ ("pending:" ++ (q ++ (":p" ++ itoa p.toNat))) := by
    rw [show claimedKey = keyPrefix ++ "claimed" from rfl] at h
    rw [h]
    simp only [pendingKey, String.append_assoc]
  have h2 := congrArg (fun s => s.toList.head?) (append_left_cancel h')
  simp [String.toList_append] at h2

theorem nodup_priorityBuckets (q : String) : (priorityBuckets q).Nodup := by
  have hinj : Function.Injective (pendingKey q) := fun _ _ h => (pendingKey_inj h).2
  exact (show [priorityCritical, priorityHigh, priorityNormal, priorityLow].Nodup by decide).map hinj

theorem mem_priorityBuckets {q z : String} : z ∈ priorityBuckets q ↔ ∃ p : Priority, p ≤ 3 ∧
    z = pendingKey q p := by
  have hp : ∀ p : Priority, p ≤ 3 ↔
      p = priorityCritical ∨ p = priorityHigh ∨ p = priorityNormal ∨ p = priorityLow := by decide +kernel
  simp only [hp, priorityBuckets, List.mem_cons, List.not_mem_nil, or_false]
  constructor
  · rintro (h | h | h | h)
    · exact ⟨_, Or.inl rfl, h⟩
    · exact ⟨_, Or.inr (Or.inl rfl), h⟩
    · exact ⟨_, Or.inr (Or.inr (Or.inl rfl)), h⟩
    · exact ⟨_, Or.inr (Or.inr (Or.inr rfl)), h⟩
  · rintro ⟨p, rfl | rfl | rfl | rfl, rfl⟩
    · exact Or.inl rfl
    · exact Or.inr (Or.inl rfl)
    · exact Or.inr (Or.inr (Or.inl rfl))
    · exact Or.inr (Or.inr (Or.inr rfl))

theorem claimedKey_not_mem (q : String) : claimedKey ∉ priorityBuckets q := by
  intro h
  obtain ⟨p, _, e⟩ := mem_priorityBuckets.mp h
  exact claimedKey_ne q p e

/-! ## the claim script -/

/-- the members of each bucket that are due, with the bucket -/
def picks (now : String) (buckets : List String) (db : Db ρ) : List (String × String) :=
  buckets.flatMap fun z => ((db.zset z).rangeByScore none (ρ.number now)).map (Prod.mk z)

section
variable {claimed now worker lockUntil jobPrefix stateClaimed : String}

/-- a pass of the inner loop leaves the other buckets alone -/
theorem zset_claimOne {z z' : String} (hz : z' ≠ z) (hc : z' ≠ claimed) (db : Db ρ) (id : String) :
    (claimOne z claimed now worker lockUntil jobPrefix stateClaimed db id).zset z' = db.zset z' := by
  show Function.update (Function.update db.zset z _) claimed _ z' = db.zset z'
  rw [Function.update_of_ne hc, Function.update_of_ne hz]

theorem zset_foldl_claimOne {z z' : String} (hz : z' ≠ z) (hc : z' ≠ claimed) (ids : List String)
    (db : Db ρ) :
    (ids.foldl (claimOne z claimed now worker lockUntil jobPrefix stateClaimed) db).zset z' =
      db.zset z' := by
  induction ids generalizing db with
  | nil => rfl
  | cons id ids ih => rw [List.foldl_cons, ih, zset_claimOne hz hc]

/-- **The nested loops of the claim script** take the first `n` of all that is due, the buckets one
after the other. -/
theorem claimBuckets_eq {buckets : List String} (hb : buckets.Nodup) (hc : claimed ∉ buckets)
    (n : Int) (db : Db ρ) :
    claimBuckets claimed now worker lockUntil jobPrefix stateClaimed buckets n db =
      (((picks now buckets db).take n.toNat).foldl (fun db p =>
        claimOne p.1 claimed now worker lockUntil jobPrefix stateClaimed db p.2) db,
      ((picks now buckets db).take n.toNat).map Prod.snd) := by
  induction buckets generalizing n db with
  | nil => simp [claimBuckets, picks]
  | cons z rest ih =>
    obtain ⟨hz, hb⟩ := List.nodup_cons.mp hb
    obtain ⟨hcz, hc⟩ := not_or.mp (mt List.mem_cons.mpr hc)
    unfold claimBuckets
    by_cases hn : n ≤ 0
    · rw [if_pos hn, Int.toNat_of_nonpos hn]
      rfl
    · rw [if_neg hn]
      dsimp only
      set all := (db.zset z).rangeByScore none (ρ.number now) with hall
      set db' := (all.take n.toNat).foldl
        (claimOne z claimed now worker lockUntil jobPrefix stateClaimed) db with hdb'
      -- the later buckets are as they were before this one
      have hrest : picks now rest db' = picks now rest db := by
        refine List.flatMap_congr fun z' hz' => ?_
        have hne : z' ≠ z := fun e => hz (e ▸ hz')
        have hne' : z' ≠ claimed := fun e => hc (e ▸ hz')
        rw [hdb', zset_foldl_claimOne hne hne']
      have hpicks : picks now (z :: rest) db = all.map (Prod.mk z) ++ picks now rest db := rfl
      have hlen : (n - ((all.take n.toNat).length : Int)).toNat =
          n.toNat - (all.map (Prod.mk z)).length := by
        rw [List.length_take, List.length_map]
        omega
      rw [ih hb hc, hrest, hlen, hpicks, List.take_append, List.foldl_append, List.map_append,
        ← List.map_take, List.foldl_map, List.map_map]
      show (_, all.take n.toNat ++ _) = (_, (all.take n.toNat).map id ++ _)
      rw [List.map_id]

end

/-- the IDs that a claim can give, in the order in which it gives them -/
def dueIDs (q : String) (now : Time) (db : Db ρ) : List JobID :=
  (picks (formatTime now) (priorityBuckets q) db).map Prod.snd

theorem dueIDs_eq (q : String) (now : Time) (db : Db ρ) : dueIDs q now db =
    (priorityBuckets q).flatMap fun z => (db.zset z).rangeByScore none (ρ.number (formatTime now)) := by
  unfold dueIDs picks
  rw [List.map_flatMap]
  refine List.flatMap_congr fun z _ => ?_
  rw [List.map_map]
  exact List.map_id _

theorem claim_ids (q : String) (now : Time) (n : Int) (w : String) (lu : Time) (db : Db ρ) :
    (claim q now n w lu db).2 = (dueIDs q now db).take n.toNat := by
  unfold claim claimDueScript
  rw [claimBuckets_eq (nodup_priorityBuckets q) (claimedKey_not_mem q)]
  exact List.map_take

/-- an ID that is in one bucket of the queue only can be given once -/
theorem nodup_dueIDs {q : String} {db : Db ρ} (h : ∀ p p' id s s',
    (db.zset (pendingKey q p)).score id = some s → (db.zset (pendingKey q p')).score id = some s' →
      p = p') (now : Time) : (dueIDs q now db).Nodup := by
  rw [dueIDs_eq]
  refine List.nodup_flatMap.mpr ⟨fun z _ => ZSet.nodup_rangeByScore _ _ _, ?_⟩
  refine (nodup_priorityBuckets q).imp_of_mem fun {z z'} hz hz' hne => ?_
  obtain ⟨p, _, rfl⟩ := mem_priorityBuckets.mp hz
  obtain ⟨p', _, rfl⟩ := mem_priorityBuckets.mp hz'
  rw [Function.onFun, List.disjoint_left]
  intro id hid hid'
  obtain ⟨s, hs, _⟩ := ZSet.mem_rangeByScore.mp hid
  obtain ⟨s', hs', _⟩ := ZSet.mem_rangeByScore.mp hid'
  exact hne (congrArg (pendingKey q) (h p p' id s s' hs hs'))

section
variable {ν : Type} {I : Db ρ → (JobID → Option ν) → Prop} {f : ν → ν} {T : JobID → Option ν} {db : Db ρ}

theorem score_of_claim {q : String} {now : Time} {n : Int} {w : String} {lu : Time} {id : JobID}
    (h : id ∈ (claim q now n w lu db).2) :
    ∃ p s, (db.zset (pendingKey q p)).score id = some s := by
  rw [claim_ids, dueIDs_eq] at h
  obtain ⟨z, hz, hid⟩ := List.mem_flatMap.mp (List.mem_of_mem_take h)
  obtain ⟨s, hs, _⟩ := ZSet.mem_rangeByScore.mp hid
  obtain ⟨p, _, rfl⟩ := mem_priorityBuckets.mp hz
  exact ⟨p, s, hs⟩

theorem nodup_claim {q : String} (hone : ∀ p p' id s s',
    (db.zset (pendingKey q p)).score id = some s → (db.zset (pendingKey q p')).score id = some s' →
      p = p') (now : Time) (n : Int) (w : String) (lu : Time) : (claim q now n w lu db).2.Nodup := by
  rw [claim_ids]
  exact (nodup_dueIDs hone now).sublist (List.take_sublist _ _)

/-- `K z x` is what a pass on the bucket `z` needs of its entry -/
theorem claim_maps {K : String → ν → Prop} {q : String} {now : Time} {w : String} {lu : Time}
    (hstep : ∀ (db : Db ρ) (T : JobID → Option ν) (z : String) (id : JobID) (x : ν), I db T →
      T id = some x → K z x → I (claimOne z claimedKey (formatTime now) w (formatTime lu)
        (keyPrefix ++ "job:") stateClaimedArg db id) (Function.update T id (some (f x))))
    (hI : I db T)
    (hmem : ∀ p id s, (db.zset (pendingKey q p)).score id = some s →
      ∃ x, T id = some x ∧ K (pendingKey q p) x)
    (hone : ∀ p p' id s s', (db.zset (pendingKey q p)).score id = some s →
      (db.zset (pendingKey q p')).score id = some s' → p = p') (n : Int) :
    I (claim q now n w lu db).1 (mapOn T f (claim q now n w lu db).2) := by
  have hnd := nodup_claim hone now n w lu
  unfold claim claimDueScript at hnd ⊢
  rw [claimBuckets_eq (nodup_priorityBuckets q) (claimedKey_not_mem q)] at hnd ⊢
  refine foldl_mapOn (fun db T p x => hstep db T p.1 p.2 x) hI hnd fun p hp => ?_
  obtain ⟨z, hz, hp⟩ := List.mem_flatMap.mp (List.mem_of_mem_take hp)
  obtain ⟨id, hid, rfl⟩ := List.mem_map.mp hp
  obtain ⟨s, hs, _⟩ := ZSet.mem_rangeByScore.mp hid
  obtain ⟨pr, _, rfl⟩ := mem_priorityBuckets.mp hz
  exact hmem pr id s hs

/-! ## the recovery script -/

/-- a pass of the loop, as `recoverStaleScript` has it -/
def recoverStep (lua : Lua) (clock : Int) (s : Db ρ × List String) (id : String) : Db ρ × List String :=
  let x := recoverOne lua claimedKey (keyPrefix ++ "job:") (keyPrefix ++ "pending:") statePendingArg
    clock s.1 id
  (x.1, if x.2 then s.2 ++ [id] else s.2)

/-- every pass moves its job, so all the IDs that were read are recovered -/
theorem recoverStale_maps {K : ν → Prop} {lua : Lua} {clock : Int}
    (hstep : ∀ (db : Db ρ) (T : JobID → Option ν) (id : JobID) (x : ν), I db T → T id = some x → K x →
      (recoverOne lua claimedKey (keyPrefix ++ "job:") (keyPrefix ++ "pending:") statePendingArg clock
        db id).2 = true ∧
      I (recoverOne lua claimedKey (keyPrefix ++ "job:") (keyPrefix ++ "pending:") statePendingArg clock
        db id).1 (Function.update T id (some (f x))))
    (hI : I db T)
    (hmem : ∀ id s, (db.zset claimedKey).score id = some s → ∃ x, T id = some x ∧ K x) :
    (recoverStale lua clock db).2 = (db.zset claimedKey).rangeByScore (some 1) clock ∧
      I (recoverStale lua clock db).1
        (mapOn T f ((db.zset claimedKey).rangeByScore (some 1) clock)) := by
  have hfold : ∀ (ids : List JobID) (db : Db ρ) (T : JobID → Option ν) (acc : List String), I db T →
      ids.Nodup → (∀ id ∈ ids, ∃ x, T id = some x ∧ K x) →
      (ids.foldl (recoverStep lua clock) (db, acc)).2 = acc ++ ids ∧
        I (ids.foldl (recoverStep lua clock) (db, acc)).1 (mapOn T f ids) := by
    intro ids
    induction ids with
    | nil =>
      intro db T acc hI _ _
      rw [mapOn_nil]
      exact ⟨(List.append_nil acc).symm, hI⟩
    | cons id ids ih =>
      intro db T acc hI hn h
      obtain ⟨hid, hn⟩ := List.nodup_cons.mp hn
      obtain ⟨x, hT, hx⟩ := h id List.mem_cons_self
      obtain ⟨hok, hI'⟩ := hstep db T id x hI hT hx
      have hpass : recoverStep lua clock (db, acc) id = ((recoverOne lua claimedKey
          (keyPrefix ++ "job:") (keyPrefix ++ "pending:") statePendingArg clock db id).1, acc ++ [id]) := by
        unfold recoverStep
        dsimp only
        rw [hok, if_pos rfl]
      rw [List.foldl_cons, hpass, ← mapOn_cons hT hid, List.append_cons acc id ids]
      refine ih _ _ _ hI' hn fun i hi => ?_
      have hne : i ≠ id := fun e => hid (e ▸ hi)
      rw [Function.update_of_ne hne]
      exact h i (List.mem_cons_of_mem _ hi)
  refine hfold _ db T [] hI (ZSet.nodup_rangeByScore _ _ _) fun id hid => ?_
  obtain ⟨s, hs, _⟩ := ZSet.mem_rangeByScore.mp hid
  exact hmem id s hs

end

/-! ## QueueSize -/

/-- the IDs that `QueueSize` counts -/
def countedIDs (q : String) (db : Db ρ) : List JobID :=
  [priorityLow, priorityNormal, priorityHigh, priorityCritical].flatMap fun p =>
    (db.zset (pendingKey q p)).members

theorem queueSize_eq (q : String) (db : Db ρ) : queueSize q db = (countedIDs q db).length := by
  unfold countedIDs
  rw [List.length_flatMap]
  rfl

theorem mem_countedIDs {q : String} {db : Db ρ} {id : JobID} : id ∈ countedIDs q db ↔
    ∃ p : Priority, p ≤ 3 ∧ ∃ s, (db.zset (pendingKey q p)).score id = some s := by
  have hall : ∀ p : Priority,
      p ∈ [priorityLow, priorityNormal, priorityHigh, priorityCritical] ↔ p ≤ 3 := by decide +kernel
  simp only [countedIDs, List.mem_flatMap, hall, ZSet.mem_members]

theorem nodup_countedIDs {q : String} {db : Db ρ} (h : ∀ p p' id s s',
    (db.zset (pendingKey q p)).score id = some s → (db.zset (pendingKey q p')).score id = some s' →
      p = p') : (countedIDs q db).Nodup := by
  refine List.nodup_flatMap.mpr ⟨fun p _ => (db.zset (pendingKey q p)).nodup, ?_⟩
  have hps : [priorityLow, priorityNormal, priorityHigh, priorityCritical].Nodup := by decide
  refine hps.imp fun {p p'} hne => ?_
  rw [Function.onFun, List.disjoint_left]
  intro id hid hid'
  obtain ⟨s, hs⟩ := ZSet.mem_members.mp hid
  obtain ⟨s', hs'⟩ := ZSet.mem_members.mp hid'
  exact hne (h p p' id s s' hs hs')

end GS.Redis
