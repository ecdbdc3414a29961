import GroovySharp.Disk.Basic

/-!
# Changes of a disk

What has to be done to turn one tree of entries into another.
-/

namespace GroovySharp.Disk

inductive Change
  | remove (spot : Spot)
  | makeDirectory (spot : Spot)
  | write (spot : Spot) (content : Bytes)
  deriving Repr, DecidableEq

mutual

/-- The changes at a spot from the entry before to the entry after. Links stay as they are. -/
def changesTo (spot : Spot) (before? : Option Entry) : Entry → List Change
  | .file content =>
    match before? with
    | some (.file old) => if old = content then [] else [.write spot content]
    | some _ => [.remove spot, .write spot content]
    | none => [.write spot content]
  | .link _ => []
  | .directory es =>
    match before? with
    | some (.directory old) =>
      ((old.filter fun o => (es.lookup o.1).isNone).map fun o => .remove (spot ++ [o.1])) ++
        changesToAll spot old es
    | some _ => .remove spot :: .makeDirectory spot :: changesToAll spot [] es
    | none => .makeDirectory spot :: changesToAll spot [] es

def changesToAll (spot : Spot) (old : Entries) : Entries → List Change
  | [] => []
  | (name, e) :: rest =>
    changesTo (spot ++ [name]) (old.lookup name) e ++ changesToAll spot old rest

end

def changes (before after : Entry) : List Change := changesTo [] (some before) after

end GroovySharp.Disk
