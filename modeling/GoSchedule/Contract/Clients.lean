import GoSchedule.Contract.Redis
import GoSchedule.Redis.Linear

/-!
# Concurrent Redis clients keep the contract

The steps of any number of clients are calls one after another (`Redis.Book`), and those keep the
contract (`Redis.stands_simulates`).

* `Orderly`   a call that takes effect is legal and sane, and no claim is disturbed before it is read;
* `book_runs`   the calls of the book are a run of the store;
* `clients_refine`   **all that the clients were given is what the map of jobs returns**, in the order of
  the book, and it hands out every job to one worker at a time.
-/

namespace GS.Redis
open Contract Sim Trans

variable {ρ : Scores}

/-- the condition on a step -/
def Orderly (b : Book ρ) (a : Label) : Prop :=
  (∀ e ∈ takes lua51 b.sys a, SaneLegal b.sys.db e.op) ∧ ∀ c, Undisturbed c b.sys a

/-- the calls of the book, one after another, bring the store to where it is -/
def Book.Runs (b : Book ρ) : Prop :=
  Sim.Runs (Calls lua51 SaneLegal) (Db.empty ρ) (b.serial lua51) b.sys.db

theorem runs_step {b b' : Book ρ} {a : Label} (W : Book.Whole lua51 b) (R : b.Runs) (hC : Orderly b a)
    (h : b.step lua51 a = some b') : b'.Runs := by
  obtain ⟨T, o, _⟩ := W.held
  have hx := step_explains o (Book.step_parts h).1
  unfold Book.Runs
  rw [Book.serial_step W.served h]
  cases htakes : takes lua51 b.sys a with
  | none =>
    rw [htakes] at hx
    have hdb : b'.sys.db = b.sys.db := hx
    rw [Option.toList_none, List.map_nil, List.append_nil, hdb]
    exact R
  | some e =>
    rw [htakes] at hx
    exact .snoc R ⟨hC.1 e htakes, Prod.ext hx.1 rfl⟩

/-- **Concurrent clients of one Redis server are clients of a map of jobs.** -/
theorem clients_refine (ρ : Scores) (l : List Label) (b : Book ρ)
    (h : run (Book.step lua51) (.init ρ) l = some b)
    (hm : Meets (Book.step lua51) Orderly (.init ρ) l) :
    Sim.Runs (Step (scale ρ)) Contract.empty (asked ρ b.ops) (fun id =>
      (b.sys.db.hash (jobKey id)).map fun f => Contract.plain (deserializeJob f)) ∧
    Exclusive (scale ρ) (asked ρ b.ops) ∧
    ∀ (i : Nat) (e : Taken) (r : Res), b.taken[i]? = some e → e.res = some r →
      (asked ρ b.ops)[i]? = some (e.op.asked, r.plain) := by
  have hkeep : Book.Whole lua51 b ∧ b.Runs := by
    refine run_keep_of (P := fun b => Book.Whole lua51 b ∧ b.Runs) ?_ hm ⟨Book.init_whole lua51, .nil⟩ h
    rintro b a b' ⟨W, R⟩ hC hst
    exact ⟨W.step hC.2 hst, runs_step W R hC hst⟩
  obtain ⟨W, R⟩ := hkeep
  obtain ⟨m, hr, S⟩ := Runs.simulate stands_simulates ⟨_, empty_same, Sqlite.empty_shows⟩ R
  have hmap : Sim.Runs (Step (scale ρ)) Contract.empty (asked ρ b.ops) m := hr.map
  refine ⟨?_, runs_exclusive hmap, fun i e r he hr => ?_⟩
  · rw [← S.eq]
    exact hmap
  · show ((b.serial lua51).map (Prod.map Op.asked Res.plain))[i]? = _
    rw [List.getElem?_map, W.answers i e r he hr trivial]
    rfl

theorem clients_refine_crossed : ∃ b, run (Book.step lua51) (.init .double) crossed = some b ∧
    Exclusive (scale .double) (asked .double b.ops) ∧ (asked .double b.ops).length = 3 := by
  have hrun : (run (Book.step lua51) (.init .double) crossed).map
      (fun b => (asked .double b.ops).length) = some 3 := by
    decide +kernel
  obtain ⟨b, hb, hlen⟩ := Option.map_eq_some_iff.mp hrun
  have hm : Meets (Book.step lua51) (fun b a => ∀ e ∈ takes lua51 b.sys a, SaneLegal b.sys.db e.op)
      (.init .double) crossed := by decide +kernel
  have hu : ∀ a ∈ crossed, ∀ (b : Book .double) (c : Caller), Undisturbed c b.sys a := by
    simp [crossed, Undisturbed]
  have horderly : Meets (Book.step lua51) Orderly (.init .double) crossed := by
    refine meets_iff.mpr fun l₁ a l₂ b' e hb' => ⟨meets_iff.mp hm l₁ a l₂ b' e hb', hu a ?_ b'⟩
    rw [e]
    exact List.mem_append_right _ List.mem_cons_self
  exact ⟨b, hb, (clients_refine .double crossed b hb horderly).2.1, hlen⟩

end GS.Redis
