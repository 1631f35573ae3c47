import Capka.Vault.Notes

/-!
# Links inside a note

A link in the body of a note is a token that names an edge. What a token shows is the title of the node its edge points to, and where the
edge is gone, a removed link.
-/

namespace Capka

/-- The class of the characters of an edge id. -/
def isEdgeIdChar (c : Char) : Bool := c.isAlphanum || c = '_' || c = '-'

def edgeTokenOpen : List Char := "[[capka-edge:".toList

def edgeTokenClose : List Char := "]]".toList

def edgeToken (edgeId : String) : String := String.ofList (edgeTokenOpen ++ edgeId.toList ++ edgeTokenClose)

/-- An id that a token can hold. -/
def IsEdgeId (edgeId : String) : Prop := edgeId.toList.all isEdgeIdChar = true ∧ 1 ≤ edgeId.length ∧ edgeId.length ≤ 32

instance (edgeId : String) : Decidable (IsEdgeId edgeId) := by
  unfold IsEdgeId
  infer_instance

/-- The id in the token a text begins with: `EDGE_TOKEN_RE` at one place. -/
def tokenAt (s : List Char) : Option String :=
  let afterOpen := s.drop edgeTokenOpen.length
  let id := afterOpen.takeWhile isEdgeIdChar
  if edgeTokenOpen.isPrefixOf s ∧ 1 ≤ id.length ∧ id.length ≤ 32 ∧ edgeTokenClose.isPrefixOf (afterOpen.drop id.length) then
    some (String.ofList id)
  else none

/-- The ids of the tokens of a text. No token begins inside another, so every place is looked at. -/
def tokensIn : List Char → List String
  | [] => []
  | c :: s => (tokenAt (c :: s)).toList ++ tokensIn s

/-- `edgeIdsIn`: in order of appearance, each once. -/
def edgeIdsIn (bodyMarkdown : String) : List String := (tokensIn bodyMarkdown.toList).eraseDups

def blockSeparator : String := "\n\n"

def appendLinkBlock (bodyMarkdown edgeId : String) : String :=
  if bodyMarkdown = "" then edgeToken edgeId else bodyMarkdown ++ blockSeparator ++ edgeToken edgeId

/-- `edgeTargets`: the live edges of the space that a text names, with the live nodes they point to. -/
def edgeTargets (bodyMarkdown spaceId : String) (g : MemoryGraph) : List (String × VaultNode) :=
  (g.edges.rows.filter fun e => e.spaceId = spaceId ∧ e.id ∈ edgeIdsIn bodyMarkdown ∧ e.deletedAt = none).filterMap
    fun e => (g.liveNode spaceId e.toNodeId).map fun n => (e.id, n)

end Capka
