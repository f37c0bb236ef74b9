import WireSchema.Source.Meaning

/-!
# Recursive declarations

A type declaration must not contain itself, for its values would have no finite form. A search in
depth from every declaration that mentions another, in the order of the names, finds the first that
does.
-/

namespace WireSchema.Source

/-- The declarations that mention others, with what they mention. -/
abbrev Mentions := List (String × List String)

namespace Mentions

def of (graph : Mentions) (name : String) : List String := (graph.lookup name).getD []

/-- Visits `name`, which is reached through `path`. Gives the names that are done, or the first that
is reached from itself. A path has each declaration once, so `fuel` need not exceed their number. -/
def visit (graph : Mentions) : Nat → List String → List String → String →
    Except String (List String)
  | 0, _, _, name => .error name
  | fuel + 1, path, finished, name =>
    if finished.contains name then .ok finished
    else if path.contains name then .error name
    else do
      let finished ← (graph.of name).foldlM (visit graph fuel (name :: path)) finished
      return name :: finished

/-- Visits every declaration. -/
def visitAll (graph : Mentions) : Except String (List String) :=
  ((graph.map (·.1)).mergeSort (· ≤ ·)).foldlM (visit graph (graph.length + 2) []) []

/-- Fails if a declaration contains itself. -/
def check (graph : Mentions) : Except SchemaError Unit :=
  match graph.visitAll with
  | .ok _ => .ok ()
  | .error name => .error (.parse ("recursive type " ++ name))

/-- What each declaration mentions. -/
def ofDecls (decls : List TypeDecl) : Mentions :=
  (decls.map fun d => (d.name, d.type.mentions)).filter fun (_, names) => !names.isEmpty

end Mentions

end WireSchema.Source
