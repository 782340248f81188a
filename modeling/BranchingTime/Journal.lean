import BranchingTime.Diagram.Handle

/-!
# The journal

Every stage reports what it did as an `Event`. Events are data; their
severity (`Event.level`), the component that reports them
(`Event.component`) and their wording (`Event.message`) are functions of
the event. A `Journal` is the list of events in the order they happened;
`Journal.lines` is its readable form at a chosen level of detail.
-/

namespace BranchingTime

/-- Severity of an event, most severe first. -/
inductive Level where
  | error | warn | info | debug
  deriving DecidableEq, Repr

namespace Level

def rank : Level → Nat
  | error => 0
  | warn => 1
  | info => 2
  | debug => 3

protected def toString : Level → String
  | error => "ERROR"
  | warn => "WARN"
  | info => "INFO"
  | debug => "DEBUG"

end Level

/-- What the stages report. -/
inductive Event where
  /-- A diagram manager is being opened. -/
  | opening (numVars cacheBits : Nat)
  /-- The unique table doubled its buckets. -/
  | tableGrown (buckets : Nat)
  /-- `count` variables of `f` are being quantified. -/
  | quantifying (f : Handle) (count : Nat)
  /-- `count` variables of the conjunction of `f` and `g` are being quantified. -/
  | conjoining (f g : Handle) (count : Nat)
  /-- The variables of `f` are being renamed by a map of `count` entries. -/
  | substituting (f : Handle) (count : Nat)
  /-- Unreachable nodes were dropped. -/
  | collected (before after dropped : Nat)
  | programParsed (vars statements : Nat)
  | tableFailed (reason : String)
  | tableBuilt (entries : Nat)
  /-- A formula was compiled; `code` is the listing of its instructions. -/
  | formulaCompiled (text code : String)
  | fixpointReached (iterations : Nat)
  | nothingToUnfold
  | thresholdRaised (threshold : Nat)
  | unfolded (expanded nodes : Nat)
  | verdictReached (text : String)
  | witnessCubes (text : String)
  | decoded (examples cubes : Nat)
  | sessionFailed (reason : String)
  | tableShape (rows vars : Nat)
  | tableListing (text : String)
  | transitionsBuilt (nodes : Nat)
  | violations (count : Nat)
  | cacheUse (hits misses : Nat)
  deriving DecidableEq, Repr

namespace Event

def level : Event → Level
  | tableFailed _ | sessionFailed _ => .error
  | nothingToUnfold => .warn
  | unfolded .. | verdictReached _ | tableShape .. | transitionsBuilt _ | violations _ => .info
  | _ => .debug

def component : Event → String
  | opening .. | quantifying .. | conjoining .. | substituting .. | collected .. => "bdd"
  | tableGrown _ => "table"
  | programParsed .. => "program"
  | tableFailed _ | tableBuilt _ => "flow"
  | formulaCompiled .. | fixpointReached _ => "ctl"
  | nothingToUnfold | thresholdRaised _ | unfolded .. => "kripke"
  | verdictReached _ | witnessCubes _ => "verifier"
  | decoded .. => "decoder"
  | sessionFailed _ | tableShape .. | tableListing _ | transitionsBuilt _ | violations _
  | cacheUse .. => "session"

def message : Event → String
  | opening n bits => s!"Bdd::new(num_vars = {n}, cache_bits = {bits})"
  | tableGrown n => s!"Growing unique table to {n} buckets"
  | quantifying f n => s!"exists(f = {f}, |vars| = {n})"
  | conjoining f g n => s!"rel_product(f = {f}, g = {g}, |vars| = {n})"
  | substituting f n => s!"rename_vars(f = {f}, |map| = {n})"
  | collected before after dropped =>
      s!"Garbage collection: {before} -> {after} nodes ({dropped} dropped)"
  | programParsed vars stmts => s!"Parsed program: {vars} variables, {stmts} statements"
  | tableFailed reason => s!"Control-flow table construction failed: {reason}"
  | tableBuilt n => s!"Built control-flow table with {n} entries"
  | formulaCompiled text code => s!"Compiled formula '{text}' to {code}"
  | fixpointReached n => s!"Fixpoint reached after {n} iterations"
  | nothingToUnfold => "Nothing to translate: the program has no statements"
  | thresholdRaised n => s!"Raising garbage collection threshold to {n}"
  | unfolded expanded nodes =>
      s!"Translated program: {expanded} continuations expanded, {nodes} nodes in transitions"
  | verdictReached text => text
  | witnessCubes text => s!"Witness cubes: {text}"
  | decoded examples cubes => s!"Decoded {examples} examples from {cubes} cubes"
  | sessionFailed reason => reason
  | tableShape rows vars => s!"Control-flow table: {rows} rows for {vars} variables"
  | tableListing text => s!"Control-flow table:\n{text}"
  | transitionsBuilt n => s!"Transitions: {n} nodes"
  | violations n => s!"Start states violating the property: {n}"
  | cacheUse hits misses => s!"Operation cache: {hits} hits, {misses} misses"

/-- The written form of an event: `LEVEL component: message`. -/
def line (e : Event) : String :=
  e.level.toString ++ " " ++ e.component ++ ": " ++ e.message

end Event

/-- Events in the order they happened. -/
abbrev Journal := Array Event

namespace Journal

/-- The written forms of the events at least as severe as `detail`. -/
def lines (journal : Journal) (detail : Level) : List String :=
  (journal.toList.filter fun e => e.level.rank ≤ detail.rank).map Event.line

end Journal

/-- Computations that keep a journal. -/
class MonadJournal (m : Type → Type) where
  record : Event → m Unit

export MonadJournal (record)

instance {m n : Type → Type} [MonadLift m n] [MonadJournal m] : MonadJournal n where
  record e := liftM (record e : m Unit)

/-- A stage that needs no diagrams: it may fail, and keeps a journal of
what it did up to then. -/
abbrev Logged (ε : Type) := EStateM ε Journal

instance {ε : Type} : MonadJournal (Logged ε) where
  record e := modify (·.push e)

end BranchingTime
