import CBoundary.Token

/-!
The comments right before and right after a declaration. Annotations are looked for there
and nowhere else.
-/
namespace CBoundary.AdjacentComment

/-- The first token that is not space, if it is a comment, and the position from which to go
on: behind the comment, or at that first token. -/
def leading (tokens : List Token) : Option Token × Nat :=
  let spaces := (tokens.takeWhile (·.kind.isSpace)).length
  match tokens.drop spaces with
  | t :: _ => if t.kind.isComment then (some t, spaces + 1) else (none, spaces)
  | [] => (none, spaces)

/-- The last token that is not space, if it is a comment at position `start` or later. -/
def trailing? (start : Nat) (tokens : List Token) : Option Token :=
  ((tokens.drop start).reverse.find? fun t => !t.kind.isSpace).filter (·.kind.isComment)

end CBoundary.AdjacentComment
