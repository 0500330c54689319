import JavaRecords.Diff.Edit

set_option autoImplicit false

namespace JavaRecords.Diff

/-- How far a search gets on each diagonal, from `-offset` on. -/
structure Frontier where
  offset : Nat
  reach : Array Nat

namespace Frontier

def start (rounds : Nat) : Frontier := ⟨rounds, Array.replicate (2 * rounds) 0⟩

def index (frontier : Frontier) (diagonal : Int) : Nat := (diagonal + frontier.offset).toNat

def get (frontier : Frontier) (diagonal : Int) : Nat :=
  frontier.reach[frontier.index diagonal]?.getD 0

def set (frontier : Frontier) (diagonal : Int) (value : Nat) : Frontier :=
  { frontier with reach := frontier.reach.setIfInBounds (frontier.index diagonal) value }

/-- Where a search enters a diagonal in round `d`: from the diagonal above or from the one below,
whichever gets further. -/
def entry (frontier : Frontier) (d : Nat) (k : Int) : Nat :=
  if k = -d || (k ≠ d && frontier.get (k - 1) < frontier.get (k + 1)) then frontier.get (k + 1)
  else frontier.get (k - 1) + 1

end Frontier

/-- A part of both sides: the lines from `old` up to `oldStop`, and from `new` up to `newStop`. -/
structure Box where
  old : Nat
  oldStop : Nat
  new : Nat
  newStop : Nat
  deriving DecidableEq, Repr

namespace Box

def oldLen (box : Box) : Nat := box.oldStop - box.old

def newLen (box : Box) : Nat := box.newStop - box.new

def rounds (box : Box) : Nat := (box.oldLen + box.newLen + 1) / 2 + 1

end Box

/-- Both searches, and the place where they met. In each round `d` a search knows for every diagonal
`k` how far it gets with `d` lines that differ. -/
structure Search where
  forward : Frontier
  backward : Frontier
  met : Option (Nat × Nat)

def forwardStep (sides : Sides) (box : Box) (d : Nat) (k : Int) (search : Search) : Search :=
  let n := box.oldLen
  let m := box.newLen
  let delta : Int := n - m
  let x := search.forward.entry d k
  let y : Int := x - k
  let advance := if x < n && 0 ≤ y && y < m then
      sides.commonPrefix (box.old + x) (box.new + y.toNat) (min (n - x) (m - y.toNat))
    else 0
  let forward := search.forward.set k (x + advance)
  let meets := delta % 2 ≠ 0 && (k - delta).natAbs + 1 ≤ d
    && x + advance + search.backward.get (delta - k) ≥ n
  { search with
    forward
    met := if meets then some (box.old + x, box.new + y.toNat) else none }

def backwardStep (sides : Sides) (box : Box) (d : Nat) (k : Int) (search : Search) : Search :=
  let n := box.oldLen
  let m := box.newLen
  let delta : Int := n - m
  let x := search.backward.entry d k
  let y : Int := x - k
  let advance := if x < n && 0 ≤ y && y < m then
      sides.commonSuffix (box.old + n - x) (box.new + m - y.toNat) (min (n - x) (m - y.toNat))
    else 0
  let backward := search.backward.set k (x + advance)
  let meets := delta % 2 = 0 && (k - delta).natAbs ≤ d
    && x + advance + search.forward.get (delta - k) ≥ n
  { search with
    backward
    met := if meets then
        some (box.old + n - (x + advance), box.new + m - (y.toNat + advance))
      else none }

/-- The steps of one search in one round, on the diagonals `k`, `k - 2`, … while `left` remain. -/
def diagonals (step : Int → Search → Search) (k : Int) : (left : Nat) → Search → Search
  | 0, search => search
  | left + 1, search =>
      let search := step k search
      match search.met with
      | some _ => search
      | none => diagonals step (k - 2) left search

def searchRounds (sides : Sides) (box : Box) (d : Nat) : (left : Nat) → Search → Search
  | 0, search => search
  | left + 1, search =>
      let search := diagonals (forwardStep sides box d) d (d + 1) search
      match search.met with
      | some _ => search
      | none =>
          let search := diagonals (backwardStep sides box d) d (d + 1) search
          match search.met with
          | some _ => search
          | none => searchRounds sides box (d + 1) left search

/-- Where the two searches of a box meet. The frontiers are left as the searches leave them. -/
def middle (sides : Sides) (box : Box) (forward backward : Frontier) : Search :=
  searchRounds sides box 0 box.rounds ⟨forward.set 1 0, backward.set 1 0, none⟩

/-- The edits of a box, and the frontiers as its searches leave them. `fuel` bounds the nesting of
boxes: every cut makes them smaller. -/
def editsOf (sides : Sides) : (fuel : Nat) → Box → Frontier → Frontier →
    List Edit × Frontier × Frontier
  | 0, box, forward, backward =>
      ([⟨.delete, box.old, box.new, box.oldLen⟩, ⟨.insert, box.oldStop, box.new, box.newLen⟩],
        forward, backward)
  | fuel + 1, box, forward, backward =>
      let first := sides.commonPrefix box.old box.new (min box.oldLen box.newLen)
      let inner : Box := { box with old := box.old + first, new := box.new + first }
      let last := sides.commonSuffix inner.oldStop inner.newStop (min inner.oldLen inner.newLen)
      let inner : Box :=
        { inner with oldStop := inner.oldStop - last, newStop := inner.newStop - last }
      let head : List Edit := if first > 0 then [⟨.equal, box.old, box.new, first⟩] else []
      let tail : List Edit :=
        if last > 0 then [⟨.equal, inner.oldStop, inner.newStop, last⟩] else []
      if inner.newLen = 0 && inner.oldLen = 0 then (head ++ tail, forward, backward)
      else if inner.newLen = 0 then
        (head ++ [⟨.delete, inner.old, inner.new, inner.oldLen⟩] ++ tail, forward, backward)
      else if inner.oldLen = 0 then
        (head ++ [⟨.insert, inner.old, inner.new, inner.newLen⟩] ++ tail, forward, backward)
      else
        let search := middle sides inner forward backward
        match search.met with
        | none =>
            (head ++ [⟨.delete, inner.old, inner.new, inner.oldLen⟩,
              ⟨.insert, inner.old, inner.new, inner.newLen⟩] ++ tail,
              search.forward, search.backward)
        | some (x, y) =>
            let (left, forward, backward) := editsOf sides fuel
              { inner with oldStop := x, newStop := y } search.forward search.backward
            let (right, forward, backward) := editsOf sides fuel
              { inner with old := x, new := y } forward backward
            (head ++ left ++ right ++ tail, forward, backward)

def Sides.edits (sides : Sides) : List Edit :=
  let box : Box := ⟨0, sides.old.size, 0, sides.new.size⟩
  let start := Frontier.start box.rounds
  (editsOf sides (box.oldLen + box.newLen + 1) box start start).1

end JavaRecords.Diff
