/-!
# Spans and their tree

A span is one iteration of a group: the offsets where it starts and ends. A `SpanTree`
nests the spans of a match. `SpanTree.nest` hangs every span below the latest span of
the enclosing group that contains it.

* `listing_node`: a tree is listed as its span and then its subtrees, one level deeper.
-/

namespace Submatch

/-- The offsets in characters between which an iteration of a group lies. -/
structure Span where
  /-- Where it starts. -/
  start : Nat
  /-- Where it ends, exclusive. -/
  stop : Nat
  deriving DecidableEq, Repr

/-- Whether one span contains another. -/
def Span.contains (outer inner : Span) : Bool :=
  outer.start ≤ inner.start && inner.stop ≤ outer.stop

/-- A span of a group with the spans that are nested in it. -/
inductive SpanTree where
  | node (group : Nat) (span : Span) (children : List SpanTree)

/-- A span that has been given its place below another one. The root, which is the span
of the whole match, has place zero; the others count from one. -/
structure Placement where
  /-- The place of the span. -/
  place : Nat
  /-- The group that it belongs to. -/
  group : Nat
  /-- The span itself. -/
  span : Span
  /-- The place of the span below which it hangs. -/
  host : Nat
  deriving DecidableEq, Repr

/-- The spans that have been given their places. -/
structure Placements where
  /-- For every group the spans placed, newest first. -/
  byGroup : Array (List Placement)
  /-- How many spans have been placed. -/
  count : Nat

namespace Placements

/-- No span of any of the groups has been placed. -/
def empty (groups : Nat) : Placements := ⟨Array.replicate groups [], 0⟩

/-- The place of the latest span of a group that contains a span, among those placed so
far; the root if there is none. -/
def hostOf (p : Placements) (group : Nat) (span : Span) : Nat :=
  let placed := p.byGroup[group]?.getD []
  ((placed.find? (·.span.contains span)).map (·.place)).getD 0

/-- Place one more span of a group, below a span of the group `parent`. -/
def add (parent group : Nat) (p : Placements) (span : Span) : Placements :=
  let host := p.hostOf parent span
  let place := p.count + 1
  ⟨p.byGroup.modify group (⟨place, group, span, host⟩ :: ·), place⟩

/-- Place the spans of the groups from `group` on, oldest first. -/
def addFrom (parents : Array Nat) (group : Nat) (p : Placements) :
    List (List Span) → Placements
  | [] => p
  | spans :: rest =>
    let parent := parents[group]?.getD 0
    addFrom parents (group + 1) (spans.foldl (add parent group) p) rest

/-- The spans placed, newest first, where the groups were placed one after the other. -/
def newestFirst (p : Placements) : List Placement := p.byGroup.toList.reverse.flatten

end Placements

namespace SpanTree

/-- The number of the group. -/
def group : SpanTree → Nat
  | node group _ _ => group

/-- The span. -/
def span : SpanTree → Span
  | node _ span _ => span

/-- The nested spans. -/
def children : SpanTree → List SpanTree
  | node _ _ children => children

/-- Siblings are ordered by where they start, then by group. -/
def le (s t : SpanTree) : Bool :=
  s.span.start < t.span.start || (s.span.start == t.span.start && s.group ≤ t.group)

/-- A tree with its children in order. -/
def branch (group : Nat) (span : Span) (children : List SpanTree) : SpanTree :=
  node group span (children.mergeSort le)

/-- Hang every placed span below its host, newest first, where `hung` holds what hangs
below each place already. A host is placed before what hangs below it, so what hangs
below a span is complete when its turn comes, and below the root in the end. -/
def assemble (whole : Span) (hung : Array (List SpanTree)) : List Placement → SpanTree
  | [] => branch 0 whole (hung[0]?.getD [])
  | p :: rest =>
    let tree := branch p.group p.span (hung[p.place]?.getD [])
    assemble whole (hung.modify p.host (tree :: ·)) rest

/-- The tree of a match with the span `whole`, given for every group the one around it
and its spans. -/
def nest (parents : Array Nat) (whole : Span) (spans : List (List Span)) : SpanTree :=
  let placed := Placements.addFrom parents 1 (.empty spans.length) spans.tail
  assemble whole (Array.replicate (placed.count + 1) []) placed.newestFirst

mutual

/-- List the spans of a tree at a depth, newest first, on top of those listed before. -/
def listOnto (depth : Nat) : SpanTree → (before : List (Nat × Nat × Span)) →
    List (Nat × Nat × Span)
  | node group span children, before =>
    listAllOnto (depth + 1) children ((depth, group, span) :: before)

/-- List the spans of several trees at a depth, newest first, on top of those listed
before. -/
def listAllOnto (depth : Nat) : List SpanTree → (before : List (Nat × Nat × Span)) →
    List (Nat × Nat × Span)
  | [], before => before
  | tree :: rest, before => listAllOnto depth rest (listOnto depth tree before)

end

/-- The spans of a tree at a depth, each before those nested in it. -/
def listing (depth : Nat) (t : SpanTree) : List (Nat × Nat × Span) :=
  (listOnto depth t []).reverse

mutual

theorem listOnto_eq (depth : Nat) (t : SpanTree) (before : List (Nat × Nat × Span)) :
    listOnto depth t before = (listing depth t).reverse ++ before := by
  cases t with
  | node group span children =>
    simp only [listing, listOnto, listAllOnto_eq, List.reverse_reverse]
    simp

theorem listAllOnto_eq (depth : Nat) (ts : List SpanTree) (before : List (Nat × Nat × Span)) :
    listAllOnto depth ts before = (ts.flatMap (listing depth)).reverse ++ before := by
  cases ts with
  | nil => rfl
  | cons t rest =>
    simp only [listAllOnto, listAllOnto_eq, listOnto_eq, List.flatMap_cons,
      List.reverse_append, List.append_assoc]

end

@[simp] theorem listing_node (depth group : Nat) (span : Span) (children : List SpanTree) :
    listing depth (node group span children) =
      (depth, group, span) :: children.flatMap (listing (depth + 1)) := by
  simp [listing, listOnto, listAllOnto_eq]

/-- One line of the text of a tree: two blanks per level, the group and the span. -/
def line : Nat × Nat × Span → String
  | (depth, group, span) =>
    String.ofList (List.replicate (2 * depth) ' ') ++ Nat.repr group ++ ": [" ++
      Nat.repr span.start ++ ", " ++ Nat.repr span.stop ++ ")\n"

/-- The text of a tree, one line per span. -/
def text (t : SpanTree) : String := String.join ((t.listing 0).map line)

end SpanTree

end Submatch
