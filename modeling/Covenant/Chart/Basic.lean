import Std.Data.HashMap
import Std.Data.HashSet

/-!
Reading a text by deduction.

A context-free grammar is given by the productions of its goals. An item says that
a beginning of one production of a goal spans a stretch of text. Items follow from
each other by three rules: a goal that comes next is begun (`predict`), a token that
comes next is read (`scan`), and a goal that has been read completely moves on the
items that wait for it (`complete`). `Chart.saturate` draws all consequences of
beginning the start goal at the start of the text.
-/

namespace Covenant

/-- What comes next in a production: a token, or a goal of its own. -/
inductive Part (N T : Type) where
  | token (t : T)
  | goal (n : N)

/-- A context-free grammar. `goals` lists every goal that has productions, and
`tokens t s` the lengths at which a token `t` at the start of `s` may end. -/
structure Cfg (N T : Type) where
  goals : List N
  productions : N → List (List (Part N T))
  tokens : T → List Char → List Nat

/-- A beginning of a production, `dot` parts long, that spans the text from `start`
to `stop`. -/
structure Item (N : Type) where
  goal : N
  production : Nat
  dot : Nat
  start : Nat
  stop : Nat
deriving DecidableEq, Hashable, Repr

def Item.advance {N : Type} (x : Item N) (stop : Nat) : Item N :=
  { x with dot := x.dot + 1, stop }

namespace Cfg

variable {N T : Type}

def parts (g : Cfg N T) (goal : N) (production : Nat) : List (Part N T) :=
  ((g.productions goal)[production]?).getD []

/-- The part after the beginning that an item stands for. -/
def next? (g : Cfg N T) (x : Item N) : Option (Part N T) :=
  (g.parts x.goal x.production)[x.dot]?

def begin (g : Cfg N T) (goal : N) (position : Nat) : List (Item N) :=
  (List.range (g.productions goal).length).map fun q => ⟨goal, q, 0, position, position⟩

def size (g : Cfg N T) : Nat :=
  (g.goals.flatMap g.productions).foldr (fun ps n => ps.length + 1 + n) 0

end Cfg

/-- The rests of a text from each of its positions on. -/
def rests : List Char → List (List Char)
  | [] => [[]]
  | c :: cs => (c :: cs) :: rests cs

def suffixes (cs : List Char) : Array (List Char) :=
  (rests cs).toArray

/-- Items found so far. `agenda` holds those whose consequences are still to be
drawn, `waiting` those whose next goal begins at a position, and `ended` the
positions at which a goal begun at a position has been read completely. -/
structure Chart (N : Type) [DecidableEq N] [Hashable N] where
  seen : Std.HashSet (Item N)
  agenda : List (Item N)
  waiting : Std.HashMap (N × Nat) (List (Item N))
  ended : Std.HashMap (N × Nat) (List Nat)

namespace Chart

variable {N T : Type} [DecidableEq N] [Hashable N]

def empty : Chart N :=
  ⟨∅, [], ∅, ∅⟩

/-- Adds an item whose consequences are to be drawn, if it is new. -/
def push (c : Chart N) (x : Item N) : Chart N :=
  if c.seen.contains x then c
  else { c with seen := c.seen.insert x, agenda := x :: c.agenda }

def pushAll (c : Chart N) (xs : List (Item N)) : Chart N :=
  xs.foldl push c

def process (g : Cfg N T) (rests : Array (List Char)) (c : Chart N) (x : Item N) : Chart N :=
  match g.next? x with
  | none =>
    let key := (x.goal, x.start)
    let c := { c with ended := c.ended.insert key (x.stop :: c.ended.getD key []) }
    c.pushAll ((c.waiting.getD key []).map fun w => w.advance x.stop)
  | some (.goal n) =>
    let key := (n, x.stop)
    let c := { c with waiting := c.waiting.insert key (x :: c.waiting.getD key []) }
    let c := c.pushAll (g.begin n x.stop)
    c.pushAll ((c.ended.getD key []).map x.advance)
  | some (.token t) =>
    c.pushAll ((g.tokens t (rests.getD x.stop [])).map fun n => x.advance (x.stop + n))

/-- Draws the consequences of the items on the agenda, one per step. -/
def run (g : Cfg N T) (rests : Array (List Char)) : Nat → Chart N → Chart N
  | 0, c => c
  | fuel + 1, c =>
    match c.agenda with
    | [] => c
    | x :: agenda => run g rests fuel (process g rests { c with agenda } x)

/-- All items that follow from beginning `start` at the start of the text. Every
step takes an item off the agenda and none comes back, so the number of items bounds
the steps. -/
def saturate (g : Cfg N T) (start : N) (cs : List Char) : Chart N :=
  run g (suffixes cs) (g.size * ((cs.length + 1) * (cs.length + 1)) + 1) (empty.pushAll (g.begin start 0))

end Chart

end Covenant
