/-!
# Formats of listings

**Names.** A listing whose edges are to be counted is either one of groups or one of edges.  The names
of the formats are in lower case.
-/

namespace GraphPlacement.Listing

/-- The record that a listing has on a line. -/
inductive Format where
  | groups
  | edges
deriving DecidableEq, Repr, Inhabited

namespace Format

def name : Format → String
  | .groups => "groups"
  | .edges => "edges"

/-- Reads a format's name, or gives the text that refuses it. -/
def parse : String → Except String Format
  | "groups" => .ok .groups
  | "edges" => .ok .edges
  | other => .error s!"unknown listing format \x60{other}\x60 (expected groups or edges)"

@[simp] theorem parse_name (f : Format) : parse f.name = .ok f := by cases f <;> rfl

end Format

end GraphPlacement.Listing
