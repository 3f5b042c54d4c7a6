namespace SeqPattern

/-- A feed that gives the items in turn. With `pause` it reports the end once before that item,
and goes on with it when polled again; with `cycle` it starts over after the last item. -/
def feedOf {α : Type} (items : Array α) (pause : Option Nat) (cycle : Bool) (poll : Nat) :
    Option α :=
  let pause := pause.filter (· ≤ items.size)
  if pause = some poll then none
  else
    let number := if pause.any (· < poll) then poll - 1 else poll
    items[if cycle then number % items.size else number]?

end SeqPattern
