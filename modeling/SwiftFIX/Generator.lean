/-
  The bulk generator of the corpus (`BulkGenerator` and `write_bulk` in
  `generate.py`).

  The random source is a parameter, `Random`, with what Python documents of its
  draws.  A method is a program on the generator's state, the source and the
  sequence number; it raises where Python does.
-/
import Mathlib.Data.Rat.Floor
import SwiftFIX.Lib.Calendar
import SwiftFIX.Lib.Draws
import SwiftFIX.Render

namespace SwiftFIX
namespace Generator

open Calendar Draws

/-! ## The random source -/

/-- `2^1024`: every finite float is below. -/
def maxFloat : ℕ := (2 ^ 256) ^ 4

/-- `random.Random`, as far as the generator calls it. -/
structure Random (ρ : Type) where
  /-- `Random(seed)` -/
  seeded : ℤ → ρ
  /-- the position that `choice` takes in a sequence, by its length -/
  choice : ℕ → ρ → ℕ × ρ
  /-- the position that `choices` takes, by the weights -/
  choices : List ℕ → ρ → ℕ × ρ
  /-- `randint(a, b)` -/
  randint : ℕ → ℕ → ρ → ℕ × ρ
  /-- `random()`, in multiples of `2^-53` -/
  random : ρ → ℕ × ρ
  /-- `lognormvariate(mu, sigma)`, a finite float -/
  lognormvariate : ℚ → ℚ → ρ → ℚ × ρ
  choice_lt : ∀ {n : ℕ} (r : ρ), 0 < n → (choice n r).1 < n
  choices_lt : ∀ {ws : List ℕ} (r : ρ), 0 < ws.sum → (choices ws r).1 < ws.length
  randint_mem : ∀ {a b : ℕ} (r : ρ), a ≤ b → a ≤ (randint a b r).1 ∧ (randint a b r).1 ≤ b
  lognormvariate_lt : ∀ (mu sigma : ℚ) (r : ρ), (lognormvariate mu sigma r).1 < maxFloat

/-- `self.r` and `self.seq`. -/
structure BulkGenerator (ρ : Type) where
  r : ρ
  seq : ℕ

/-- A method of the generator; `none` when it raises. -/
abbrev Gen (ρ : Type) := StateT (BulkGenerator ρ) Option

variable {ρ α : Type}

/-- `raise`. -/
def raise : Gen ρ α := fun _ => none

/-- A draw from the source. -/
def draw (f : ρ → α × ρ) : Gen ρ α := fun g => some ((f g.r).1, { g with r := (f g.r).2 })

/-- `l[i]`. -/
def item (l : List α) (i : ℕ) : Gen ρ α :=
  match l[i]? with
  | some a => pure a
  | none => raise

section
variable (G : Random ρ)

/-- `self.r.choice(l)`. -/
def choice (l : List α) : Gen ρ α := do
  if l.isEmpty then raise
  else
    let i ← draw (G.choice l.length)
    item l i

/-- `self.r.choices(l, weights=ws)[0]`. -/
def weighted (l : List (α × ℕ)) : Gen ρ α := do
  if (l.map Prod.snd).sum = 0 then raise
  else
    let i ← draw (G.choices (l.map Prod.snd))
    item (l.map Prod.fst) i

/-- `self.r.choices(l, k=k)`: every element weighs the same. -/
def choices (l : List α) (k : ℕ) : Gen ρ (List α) := times k (weighted G (l.map fun a => (a, 1)))

/-- `self.r.randint(a, b)`. -/
def randint (a b : ℕ) : Gen ρ ℕ := if b < a then raise else draw (G.randint a b)

end

/-! ## Formatting -/

/-- `f"{n:0wd}"`. -/
def zeroPad (w n : ℕ) : List Char :=
  List.replicate (w - (Nat.toDigits 10 n).length) '0' ++ Nat.toDigits 10 n

/-- The nearest integer, the even one of two. -/
def roundHalfEven (x : ℚ) : ℤ :=
  if x - x.floor < 1 / 2 then x.floor
  else if 1 / 2 < x - x.floor then x.floor + 1
  else if x.floor % 2 = 0 then x.floor else x.floor + 1

/-- `f"{x:.2f}"`, for a positive number. -/
def format2f (x : ℚ) : List Char :=
  let cents := (roundHalfEven (100 * x)).toNat
  Nat.toDigits 10 (cents / 100) ++ '.' :: zeroPad 2 (cents % 100)

/-- `strftime("%Y%m%d-%H:%M:%S")` and the milliseconds, `ms` after midnight. -/
def strftime (d : Date) (ms : ℕ) : List Char :=
  zeroPad 4 d.year ++ (zeroPad 2 d.month ++ (zeroPad 2 d.day ++ '-' ::
    (zeroPad 2 (ms / 3600000) ++ ':' :: (zeroPad 2 (ms / 60000 % 60) ++ ':' ::
      (zeroPad 2 (ms / 1000 % 60) ++ '.' :: zeroPad 3 (ms % 1000))))))

/-- `datetime.max.toordinal()`. -/
def maxOrdinal : ℕ := 3652059

/-- `self.start.toordinal()`. -/
def startOrdinal : ℕ := 739617

example : fromOrdinal startOrdinal = ⟨2026, 1, 1⟩ := by decide

/-- `self.start + timedelta(milliseconds=self.seq * 10)`, printed; `none` past
    the last day of a `datetime`. -/
def timestamp (seq : ℕ) : Option (List Char) :=
  let ms := seq * 10
  let day := startOrdinal + ms / 86400000
  if maxOrdinal < day then none else some (strftime (fromOrdinal day) (ms % 86400000))

example : timestamp 1 = some "20260101-00:00:00.010".toList := by decide

/-! ## The data -/

/-- `SYMBOLS`. -/
def SYMBOLS : List (List Char) := [
  "AAPL", "MSFT", "AMZN", "GOOGL", "META", "NVDA", "TSLA", "BRK.B",
  "JPM", "V", "WMT", "UNH", "JNJ", "MA", "PG", "HD", "BAC", "AVGO",
  "LLY", "ABBV", "CVX", "XOM", "KO", "MRK", "PEP", "IBM", "ORCL",
  "CRM", "ADBE", "NFLX", "SPY", "QQQ", "IWM",
  "DIS", "NKE", "MCD", "SBUX", "CSCO", "INTC", "AMD", "QCOM", "TXN",
  "MU", "AMAT", "LRCX", "KLAC", "PYPL", "SQ", "SHOP", "UBER", "LYFT",
  "ABNB", "DASH", "COIN", "MSTR", "PLTR", "SNOW", "DDOG", "CRWD",
  "ZS", "OKTA", "NET", "MDB", "TEAM", "WDAY", "NOW"].map String.toList

/-- `SENDERS`. -/
def SENDERS : List (List Char) := [
  "SENDER", "BUYSIDE1", "BUYSIDE2", "HFT01", "ALGO_A",
  "PRIME01", "DMA_DESK", "INST_FLOW", "RETAIL_AGG"].map String.toList

/-- `TARGETS`. -/
def TARGETS : List (List Char) := [
  "TARGET", "BROKER_X", "ECN_Y", "EXCH_Z",
  "DARK_POOL_A", "LIT_VENUE_B", "MM_QUOTE_C"].map String.toList

/-- `TEXT_WORDS`. -/
def TEXT_WORDS : List (List Char) := [
  "order", "filled", "partial", "reject", "price", "limit", "market",
  "side", "buy", "sell", "quote", "spread", "depth", "book", "halt",
  "resume", "auction", "close", "open", "session", "venue", "route",
  "reroute", "latency", "timeout", "retry", "amend", "cancel", "replace",
  "allocation", "account", "fill", "liquidity", "maker", "taker"].map String.toList

/-- `string.ascii_uppercase + string.digits`. -/
def upperDigits : List Char := "ABCDEFGHIJKLMNOPQRSTUVWXYZ0123456789".toList

/-- The quantities of `_qty`. -/
def quantities : List ℕ := [5, 10, 50, 75, 100, 200, 500, 1000, 5000, 10000]

/-- The methods that build messages. -/
inductive Kind where
  | executionReport
  | newOrderSingle
  | marketDataSnapshot
  | newOrderSingleWithAllocs
  | heartbeat
  | testRequest
  | orderCancelRequest
  | logon
  | logout
  | resendRequest
  | news
  | marketDataIncremental
  deriving DecidableEq, Repr

/-- `BUILDERS`, the weights in hundredths. -/
def BUILDERS : List (Kind × ℕ) := [
  (.executionReport, 32), (.newOrderSingle, 18), (.marketDataSnapshot, 10),
  (.newOrderSingleWithAllocs, 5), (.heartbeat, 10), (.testRequest, 4), (.orderCancelRequest, 5),
  (.logon, 2), (.logout, 2), (.resendRequest, 2), (.news, 8), (.marketDataIncremental, 2)]

/-! ## Primitives -/

/-- The tags of a message with their values, as `render` takes them. -/
abbrev Tags := List (ℤ × List Char)

/-- `_next_seq`: the number of the next message. -/
def nextSeq : Gen ρ ℕ := fun g => some (g.seq + 1, { g with seq := g.seq + 1 })

/-- `_ts`: the time stamp of the current number. -/
def ts : Gen ρ (List Char) := fun g => (timestamp g.seq).map fun s => (s, g)

section
variable (G : Random ρ)

/-- `_cl_ord_id`. -/
def clOrdId : Gen ρ (List Char) := do
  let s ← choices G upperDigits 10
  return "CL".toList ++ s

/-- `_exec_id`. -/
def execId : Gen ρ (List Char) := do
  let s ← choices G upperDigits 10
  return "EX".toList ++ s

/-- `_order_id`. -/
def orderId : Gen ρ (List Char) := do
  let s ← choices G upperDigits 10
  return "OR".toList ++ s

/-- `_price`: at least one cent, with two decimals. -/
def price : Gen ρ (List Char) := do
  let x ← draw (G.lognormvariate (46 / 10) (8 / 10))
  return format2f (max (1 / 100) x)

/-- `_qty`. -/
def qty : Gen ρ ℕ := choice G quantities

/-- `_symbol`. -/
def symbol : Gen ρ (List Char) := choice G SYMBOLS

/-- `_text`: words between blanks. -/
def text (minWords maxWords : ℕ) : Gen ρ (List Char) := do
  let n ← randint G minWords maxWords
  let words ← times n (choice G TEXT_WORDS)
  return [' '].intercalate words

/-- `_header`: type, parties, number and time stamp. -/
def header (msgType : List Char) : Gen ρ Tags := do
  let sender ← choice G SENDERS
  let target ← choice G TARGETS
  let seq ← nextSeq
  let t ← ts
  return [(35, msgType), (49, sender), (56, target), (34, formatInt seq), (52, t)]

/-! ## Messages -/

/-- `heartbeat`. -/
def heartbeat : Gen ρ Tags := header G ['0']

/-- `test_request`. -/
def testRequest : Gen ρ Tags := do
  let h ← header G ['1']
  let id ← clOrdId G
  return h ++ [(112, id)]

/-- `resend_request`: a range of numbers. -/
def resendRequest : Gen ρ Tags := do
  let start ← randint G 1 1000
  let n ← randint G 1 50
  let h ← header G ['2']
  return h ++ [(7, formatInt start), (16, formatInt (start + n : ℕ))]

/-- `logon`. -/
def logon : Gen ρ Tags := do
  let h ← header G ['A']
  let interval ← choice G [10, 30, 60]
  return h ++ [(98, ['0']), (108, formatInt (interval : ℕ))]

/-- `logout`. -/
def logout : Gen ρ Tags := header G ['5']

/-- The price of a limit order. -/
def limitPrice (ordType : List Char) : Gen ρ Tags :=
  if ordType = ['2'] then do
    let px ← price G
    return [(44, px)]
  else return []

/-- The fields of an order up to `59`, as both order methods build them. -/
def order (ordType tif side : List Char) (quantity : Gen ρ ℕ) : Gen ρ (ℕ × Tags) := do
  let h ← header G ['D']
  let id ← clOrdId G
  let sym ← symbol G
  let t ← ts
  let n ← quantity
  let limit ← limitPrice G ordType
  return (n, h ++ [(11, id), (21, ['1']), (55, sym), (54, side), (60, t), (38, formatInt n),
    (40, ordType)] ++ limit ++ [(59, tif)])

/-- `new_order_single`. -/
def newOrderSingle : Gen ρ Tags := do
  let ordType ← choice G [['1'], ['2']]
  let tif ← choice G [['0'], ['1'], ['3']]
  let side ← choice G [['1'], ['2']]
  let r ← order G ordType tif side (qty G)
  return r.2

/-- The loop over the accounts: even shares, the last takes what is left. -/
def allocs (quantity n : ℕ) : Tags :=
  (List.range n).flatMap fun i =>
    [(79, "ACCT".toList ++ zeroPad 2 i),
      (80, formatInt (if i = n - 1 then (quantity : ℤ) - (quantity / n : ℕ) * (n - 1 : ℕ)
        else (quantity / n : ℕ)))]

/-- `new_order_single_with_allocs`: an order and the group `78`. -/
def newOrderSingleWithAllocs : Gen ρ Tags := do
  let ordType ← choice G [['1'], ['2']]
  let tif ← choice G [['0'], ['1'], ['3']]
  let side ← choice G [['1'], ['2']]
  let quantity ← qty G
  let r ← order G ordType tif side (pure quantity)
  let n ← randint G 2 5
  return r.2 ++ (78, formatInt n) :: allocs quantity n

/-- `ord_status_map`. -/
def ordStatus (execType : List Char) : List Char := if execType = ['F'] then ['2'] else execType

/-- The quantities of a report: a trade fills some of the order. -/
def fills (execType : List Char) (quantity : ℕ) (px : List Char) : Gen ρ Tags :=
  if execType = ['F'] then do
    let last ← randint G 1 quantity
    return [(32, formatInt last), (31, px), (151, formatInt ((quantity : ℤ) - last)),
      (14, formatInt last), (6, px)]
  else return [(151, formatInt quantity), (14, ['0']), (6, ['0'])]

/-- The text of about 15% of the reports. -/
def note : Gen ρ Tags := do
  let u ← draw G.random
  if 100 * u < 15 * 2 ^ 53 then do
    let s ← text G 4 14
    return [(58, s)]
  else return []

/-- `execution_report`. -/
def executionReport : Gen ρ Tags := do
  let execType ← weighted G [(['F'], 70), (['0'], 15), (['4'], 10), (['8'], 5)]
  let side ← choice G [['1'], ['2']]
  let quantity ← qty G
  let px ← price G
  let h ← header G ['8']
  let oid ← orderId G
  let eid ← execId G
  let sym ← symbol G
  let filled ← fills G execType quantity px
  let remark ← note G
  return h ++ [(37, oid), (17, eid), (150, execType), (39, ordStatus execType), (55, sym),
    (54, side), (38, formatInt quantity)] ++ filled ++ remark

/-- `order_cancel_request`. -/
def orderCancelRequest : Gen ρ Tags := do
  let h ← header G ['F']
  let orig ← clOrdId G
  let id ← clOrdId G
  let sym ← symbol G
  let side ← choice G [['1'], ['2']]
  let t ← ts
  return h ++ [(41, orig), (11, id), (55, sym), (54, side), (60, t)]

/-- `market_data_snapshot`: the group `268` of three tags an entry. -/
def marketDataSnapshot : Gen ρ Tags := do
  let n ← randint G 2 10
  let h ← header G ['W']
  let id ← clOrdId G
  let sym ← symbol G
  let entries ← times n do
    let type ← choice G [['0'], ['1']]
    let px ← price G
    let size ← qty G
    return [(269, type), (270, px), (271, formatInt size)]
  return h ++ [(262, id), (55, sym), (268, formatInt n)] ++ entries.flatten

/-- `market_data_incremental`: the group `268` of five tags an entry. -/
def marketDataIncremental : Gen ρ Tags := do
  let n ← randint G 8 25
  let h ← header G ['X']
  let entries ← times n do
    let action ← choice G [['0'], ['1'], ['2']]
    let type ← choice G [['0'], ['1']]
    let sym ← symbol G
    let px ← price G
    let size ← qty G
    return [(279, action), (269, type), (55, sym), (270, px), (271, formatInt size)]
  return h ++ [(268, formatInt n)] ++ entries.flatten

/-- `news`: the group `33` of lines. -/
def news : Gen ρ Tags := do
  let n ← randint G 1 6
  let h ← header G ['B']
  let headline ← text G 4 16
  let subject ← text G 8 24
  let lines ← times n (text G 6 40)
  return h ++ [(148, headline), (147, subject), (33, formatInt n)] ++ lines.map fun s => (58, s)

/-! ## The mixer -/

/-- `getattr(self, method_name)()`. -/
def build : Kind → Gen ρ Tags
  | .executionReport => executionReport G
  | .newOrderSingle => newOrderSingle G
  | .marketDataSnapshot => marketDataSnapshot G
  | .newOrderSingleWithAllocs => newOrderSingleWithAllocs G
  | .heartbeat => heartbeat G
  | .testRequest => testRequest G
  | .orderCancelRequest => orderCancelRequest G
  | .logon => logon G
  | .logout => logout G
  | .resendRequest => resendRequest G
  | .news => news G
  | .marketDataIncremental => marketDataIncremental G

/-- `render(tags)` within a method. -/
def rendered (tags : Tags) : Gen ρ (List Byte) :=
  match render tags with
  | some frame => pure frame
  | none => raise

/-- `generate_one`: a kind by its weight, and its frame. -/
def generateOne : Gen ρ (Kind × List Byte) := do
  let kind ← weighted G BUILDERS
  let tags ← build G kind
  let frame ← rendered tags
  return (kind, frame)

/-- `BulkGenerator(seed=seed)`. -/
def BulkGenerator.new (seed : ℤ) : BulkGenerator ρ := ⟨G.seeded seed, 0⟩

/-- The loop of `write_bulk`: the kinds and the chunks. -/
def chunks (count : ℕ) : Gen ρ (List (Kind × List Byte)) := times count (generateOne G)

/-- The bytes that `write_bulk` writes to the file; `none` when it raises. -/
def writeBulk (count : ℕ) (seed : ℤ) : Option (List Byte) :=
  (chunks G count (BulkGenerator.new G seed)).map fun r => (r.1.map Prod.snd).flatten

end

end Generator
end SwiftFIX
