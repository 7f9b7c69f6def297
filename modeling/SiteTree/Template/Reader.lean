import SiteTree.Template.Piece

/-!
# From pieces to elements

Tags that open, divide and close blocks are put together while the pieces are read from left
to right, with the blocks that are open at hand.
-/

namespace SiteTree.Template

/-- What an open block becomes. -/
inductive BlockKind where
  | block (call : Call) (names : List String)
  | inclusion (closing : String) (inclusion : Inclusion)
  | directive (call : Call)

/-- The name that closes such a block. -/
def BlockKind.name : BlockKind → String
  | .block call _ => call.helper
  | .inclusion closing _ => closing
  | .directive call => call.helper

/-- A block that is open, with the elements before it and its first body once that is
finished. All elements are in order, the latest first. -/
structure OpenBlock where
  kind : BlockKind
  before : List Element
  body : Option (List Element) := none
  /-- Does it stand in place of the other body of the block around it? -/
  chained : Bool := false

/-- Elements that are being read, and the open blocks around them, the innermost first. -/
structure Draft where
  elements : List Element := []
  blocks : List OpenBlock := []

/-- The element of a block, given what was read last in it. -/
def OpenBlock.close (block : OpenBlock) (elements : List Element) : Element :=
  match block.kind, block.body with
  | .block call names, none => .block call names elements.reverse none
  | .block call names, some body => .block call names body (some elements.reverse)
  | .inclusion _ inclusion, _ => .inclusion inclusion (some elements.reverse)
  | .directive call, _ => .directive call (some elements.reverse)

/-- Closes the innermost block and those around it in whose place it stands, down to the one
that was opened by a tag of the name given. -/
def closeBlocks (name : String) : List Element → List OpenBlock → Except String Draft
  | _, [] => .error ("no block to close for " ++ name)
  | elements, block :: blocks =>
    let element := block.close elements
    if block.chained then closeBlocks name (element :: block.before) blocks
    else if block.kind.name = name then .ok ⟨element :: block.before, blocks⟩
    else .error ("block of " ++ block.kind.name ++ " closed by " ++ name)

/-- Ends the first body of the innermost block. -/
def Draft.divide (draft : Draft) : Except String Draft :=
  match draft.blocks with
  | block :: blocks =>
    match block.kind, block.body with
    | .block _ _, none =>
      .ok ⟨[], { block with body := some draft.elements.reverse } :: blocks⟩
    | _, _ => .error "expected the end of the block"
  | [] => .error "expected a block to divide"

def Draft.add (draft : Draft) (element : Element) : Draft :=
  { draft with elements := element :: draft.elements }

def Draft.open (draft : Draft) (kind : BlockKind) (chained : Bool) : Draft :=
  ⟨[], { kind, before := draft.elements, chained } :: draft.blocks⟩

def Draft.read (draft : Draft) : String ⊕ Tag → Except String Draft
  | .inl text => .ok (draft.add (.text text))
  | .inr tag =>
    match tag.kind with
    | .value escaped expression => .ok (draft.add (.value escaped expression))
    | .call escaped call => .ok (draft.add (.call escaped call))
    | .inclusion inclusion => .ok (draft.add (.inclusion inclusion none))
    | .directive call => .ok (draft.add (.directive call none))
    | .comment => .ok draft
    | .openBlock call names => .ok (draft.open (.block call names) false)
    | .openInclusion closing inclusion =>
      .ok (draft.open (.inclusion closing inclusion) false)
    | .openDirective call => .ok (draft.open (.directive call) false)
    | .otherwise => draft.divide
    | .otherwiseBlock call names => do
      return (← draft.divide).open (.block call names) true
    | .closeBlock name => closeBlocks name draft.elements draft.blocks

/-- The elements of a template. -/
def parse (template : String) : Except String (List Element) := do
  let text := template.toList
  let pieces ← pieces (text.length + 1) text
  let draft ← (trimPieces {} .start pieces).foldlM Draft.read {}
  if draft.blocks.isEmpty then return draft.elements.reverse
  else throw "expected the end of a block"

end SiteTree.Template
