import Covenant.Chart.Basic

/-!
Trees of a grammar, and whether a text has exactly one.

The chart of a text tells which goals span which stretches of it. Trees are read off
the chart from right to left: the last part of a production ends where the item ends,
and it begins where an item one part shorter ends. Only as many trees are made as are
asked for, so telling no tree, one and several apart costs two trees at most at every
place.
-/

namespace Covenant

/-- A derivation tree: a token with its place and its text, or a production of a goal
with a tree for each of its parts. -/
inductive Tree (N : Type) where
  | leaf (start : Nat) (text : List Char)
  | node (goal : N) (production : Nat) (children : List (Tree N))
deriving Inhabited

/-- The first `cap` results of `f` on the members of a list, where `f` gives at most
as many results as it is asked for. -/
def collect {α β : Type} (f : α → Nat → List β) : Nat → List α → List β
  | _, [] => []
  | cap, a :: as =>
    let found := f a cap
    if cap ≤ found.length then found.take cap
    else found ++ collect f (cap - found.length) as

namespace Chart

variable {N T : Type} [DecidableEq N] [Hashable N]

/-- Whether a part of a production spans the text from `i` to `k`. -/
def spans (g : Cfg N T) (rests : Array (List Char)) (c : Chart N) (p : Part N T) (i k : Nat) :
    Bool :=
  match p with
  | .token t => (g.tokens t (rests.getD i [])).contains (k - i)
  | .goal n => (c.ended.getD (n, i) []).contains k

/-- The positions at which the part after `dot` of a production may begin if it ends
at `k`. -/
def joints (g : Cfg N T) (rests : Array (List Char)) (c : Chart N) (goal : N)
    (production dot start : Nat) (p : Part N T) (k : Nat) : List Nat :=
  (List.range' start (k + 1 - start)).filter fun m =>
    c.seen.contains ⟨goal, production, dot, start, m⟩ && c.spans g rests p m k

/-- Up to `cap` sequences of trees for the first `dot` parts of a production, between
`start` and `k`. `sub` gives the trees of a goal. -/
def forests (g : Cfg N T) (rests : Array (List Char)) (c : Chart N)
    (sub : N → Nat → Nat → Nat → List (Tree N)) (goal : N) (production start : Nat) :
    Nat → Nat → Nat → List (List (Tree N))
  | 0, k, _ => if start = k then [[]] else []
  | dot + 1, k, cap =>
    match (g.parts goal production)[dot]? with
    | none => []
    | some p =>
      collect (fun m cap =>
        let last := match p with
          | .token _ => [Tree.leaf m ((rests.getD m []).take (k - m))]
          | .goal n => sub n m k cap
        let front := forests g rests c sub goal production start dot m cap
        (front.flatMap fun ts => last.map fun t => ts ++ [t]).take cap)
        cap (c.joints g rests goal production dot start p k)

/-- Up to `cap` trees of a goal between two positions, no deeper than `fuel`. -/
def trees (g : Cfg N T) (rests : Array (List Char)) (c : Chart N) :
    Nat → N → Nat → Nat → Nat → List (Tree N)
  | 0, _, _, _, _ => []
  | fuel + 1, goal, i, k, cap =>
    collect (fun q cap =>
      (forests g rests c (trees g rests c fuel) goal q i (g.parts goal q).length k cap).map
        (Tree.node goal q))
      cap (List.range (g.productions goal).length)

end Chart

/-- Whether a text has no tree, one, or several. Without any, `furthest` is the last
position at which a token of a beginning of a tree ends, and `expected` are the tokens
that could go on from there. -/
inductive Verdict (N T : Type) where
  | none (furthest : Nat) (expected : List T)
  | one (tree : Tree N)
  | several

namespace Cfg

variable {N T : Type} [DecidableEq N] [Hashable N]

/-- The last position that an item of the chart reaches. -/
def furthest (c : Chart N) : Nat :=
  c.seen.fold (fun n x => max n x.stop) 0

def expected (g : Cfg N T) (c : Chart N) (position : Nat) : List T :=
  c.seen.toList.filterMap fun x =>
    if x.stop = position then
      match g.next? x with
      | some (.token t) => some t
      | _ => none
    else none

/-- A bound on the depth of trees: stretches of text that shrink at most as often as
there are characters, and on each of them every goal once. -/
def depth (g : Cfg N T) (length : Nat) : Nat :=
  g.goals.length * (length + 1) + 1

/-- Reads a whole text as `start`. -/
def read (g : Cfg N T) (start : N) (cs : List Char) : Verdict N T :=
  let rests := suffixes cs
  let c := Chart.saturate g start cs
  match c.trees g rests (g.depth cs.length) start 0 cs.length 2 with
  | [] =>
    let p := furthest c
    .none p (g.expected c p)
  | [t] => .one t
  | _ => .several

end Cfg

end Covenant
