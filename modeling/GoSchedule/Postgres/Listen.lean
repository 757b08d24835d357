import GoSchedule.Lib.Quoted

/-!
# The channel names of the Postgres listener

A queue has one notification channel.  `Save` gives its name to `pg_notify` as a parameter; `Listen` has
to write it into the text of a statement.  Strings are bytes here, as they are in Go, and a queue may
have any.

* `pgQuoteIdent`   the loop over the bytes of a name, which doubles every quote;
* `parseListen`    the statement as the server reads it: the keyword, a blank, and one delimited
  identifier, up to its closing quote.  What follows is given back with it;
* `parseListen_eq_some_iff`   a statement names a channel, and holds nothing else, exactly if it is the
  one that `Listen` writes for that channel;
* `listens_iff`    **a listener hears of a `Save` exactly if it is to its own queue**.

The server cuts identifiers to 63 bytes; that is not modelled.
-/

namespace GS.Postgres
open Quoted

abbrev Bytes := List UInt8

def bytes (s : String) : Bytes := s.toUTF8.data.toList

/-- `'"'` -/
def quote : UInt8 := 34

def appendIdent (out : Bytes) (c : UInt8) : Bytes :=
  if c = quote then out ++ [quote, quote] else out ++ [c]

def pgQuoteIdent (s : Bytes) : Bytes := s.foldl appendIdent [quote] ++ [quote]

def notifyChannel (queue : Bytes) : Bytes := bytes "goschedule_" ++ queue

/-- the statement of `Listen` -/
def listenSQL (queue : Bytes) : Bytes := bytes "LISTEN " ++ pgQuoteIdent (notifyChannel queue)

def parseListen (sql : Bytes) : Option (Bytes × Bytes) :=
  (sql.dropPrefix? (bytes "LISTEN ")).bind (scan quote)

theorem appendIdent_eq (out : Bytes) (c : UInt8) :
    appendIdent out c = out ++ doubled quote [c] := by
  unfold appendIdent doubled
  split <;> simp [*]

/-- the loop has written its bytes so far, with the quotes doubled -/
theorem foldl_appendIdent (out s : Bytes) : s.foldl appendIdent out = out ++ doubled quote s := by
  induction s generalizing out with
  | nil => simp [doubled]
  | cons c s ih =>
    rw [List.foldl_cons, ih, appendIdent_eq, List.append_assoc]
    simp [doubled]

theorem pgQuoteIdent_eq (s : Bytes) : pgQuoteIdent s = quoted quote s := by
  rw [pgQuoteIdent, foldl_appendIdent]
  rfl

/-- the whole of a text is one identifier exactly if the loop writes it -/
theorem scan_eq_iff {t s : Bytes} : scan quote t = some (s, []) ↔ t = pgQuoteIdent s := by
  rw [scan_eq_some_iff, List.append_nil, pgQuoteIdent_eq]
  exact and_iff_left (by simp)

theorem parseListen_eq_some_iff {sql channel : Bytes} :
    parseListen sql = some (channel, []) ↔ sql = bytes "LISTEN " ++ pgQuoteIdent channel := by
  unfold parseListen
  rw [Option.bind_eq_some_iff]
  constructor
  · rintro ⟨t, ht, hscan⟩
    obtain ⟨word, rfl, hword⟩ := List.dropPrefix?_eq_some_iff.mp ht
    rw [eq_of_beq hword, scan_eq_iff.mp hscan]
  · intro h
    exact ⟨_, List.dropPrefix?_eq_some_iff.mpr ⟨_, h, BEq.rfl⟩, scan_eq_iff.mpr rfl⟩

theorem parseListen_listenSQL (queue : Bytes) :
    parseListen (listenSQL queue) = some (notifyChannel queue, []) :=
  parseListen_eq_some_iff.mpr rfl

theorem notifyChannel_inj {queue queue' : Bytes} :
    notifyChannel queue = notifyChannel queue' ↔ queue = queue' :=
  List.append_right_inj _

/-- `Listen` to the one queue, `Save` to the other -/
theorem listens_iff {queue queue' : Bytes} :
    parseListen (listenSQL queue) = some (notifyChannel queue', []) ↔ queue = queue' := by
  rw [parseListen_listenSQL, Option.some_inj, Prod.mk_inj, notifyChannel_inj]
  exact and_iff_left rfl

/-- **No queue name gets out of its quotes**, and no two queues share a channel. -/
theorem listen_faithful :
    (∀ s, scan quote (pgQuoteIdent s) = some (s, [])) ∧
    (∀ queue, parseListen (listenSQL queue) = some (notifyChannel queue, [])) ∧
    ∀ queue queue', parseListen (listenSQL queue) = parseListen (listenSQL queue') ↔ queue = queue' := by
  refine ⟨fun s => scan_eq_iff.mpr rfl, parseListen_listenSQL, fun queue queue' => ?_⟩
  rw [parseListen_listenSQL queue']
  exact listens_iff

-- a"b, and a queue name that is one quote
example : pgQuoteIdent [97, 34, 98] = [34, 97, 34, 34, 98, 34] := by decide
example : pgQuoteIdent [34] = [34, 34, 34, 34] := by decide

end GS.Postgres
