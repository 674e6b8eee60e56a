import VtableCloud.Arrangement.Member

/-!
# The interleaved arrangement

The table grows outwards from the address points. Every defined member has a cursor for each
direction, on its address point or on the slot before it. In each round the members that have
slots left give one each, in preorder, and move their cursors on, until a round is empty. The
rounds before the address points stand in front, the last one first; the rounds from the
address points on follow.

* `Direction.round` and `Direction.advance` are one round of the loop;
* `Direction.rounds` is the loop.
-/

namespace VtableCloud

/-- The direction in which members give their slots. -/
inductive Direction where
  | backward
  | forward

/-- A member and the index of the slot that it gives next. -/
structure Cursor where
  member : Member
  next : Int

namespace Direction

/-- How far a cursor moves. -/
def step : Direction → Int
  | forward => 1
  | backward => -1

/-- How far from its address point a member begins. -/
def origin : Direction → Int
  | forward => 0
  | backward => -1

/-- The member has slots left. -/
def remaining (d : Direction) (c : Cursor) : Bool :=
  match d with
  | forward => decide (c.next ≤ c.member.node.last)
  | backward => decide (c.member.first ≤ c.next)

def advance (d : Direction) (c : Cursor) : Cursor :=
  if d.remaining c then { c with next := c.next + d.step } else c

/-- Every defined member has its cursor on the slot that it gives first. -/
def start (d : Direction) (members : List Member) : List Cursor :=
  (members.filter (·.node.isDefined)).map fun m => ⟨m, m.node.addressPoint + d.origin⟩

/-- The slots that are given in one round. -/
def round (d : Direction) (cursors : List Cursor) : List Slot :=
  (cursors.filter d.remaining).map fun c => .entry c.member.key c.next

/-- The number of slots that a member has left. -/
def left (d : Direction) (c : Cursor) : Nat :=
  match d with
  | forward => (c.member.node.last + 1 - c.next).toNat
  | backward => (c.next + 1 - c.member.first).toNat

/-- The rounds until one is empty, if it comes within a number of rounds. -/
def rounds (d : Direction) : Nat → List Cursor → List (List Slot)
  | 0, _ => []
  | limit + 1, cursors =>
    match d.round cursors with
    | [] => []
    | slots => slots :: d.rounds limit (cursors.map d.advance)

/-- The rounds of some members. No member gives more slots than it has left. -/
def allRounds (d : Direction) (members : List Member) : List (List Slot) :=
  d.rounds (((d.start members).map d.left).foldl max 0) (d.start members)

end Direction

def interleaved (members : List Member) : Arrangement :=
  ⟨(Direction.backward.allRounds members).reverse.flatten ++
    (Direction.forward.allRounds members).flatten, 1⟩

end VtableCloud
