import ModuleReload.Engine.Basic

/-!
# Changing the roots and handing over

Dependencies are filtered by the owned roots, so they are remembered only as long as the roots stay
the same. A new engine can take over what an old one remembers: what the new one knows already
counts more, the clock falls behind neither, and dependencies are taken over only between engines
of equal roots.
-/

namespace ModuleReload.Engine

def forgetDependencies (e : Engine) : Engine :=
  { e with dependencies := .empty }

def setRoots (e : Engine) (roots : OwnedRoots) : Engine :=
  if roots = e.roots then e else { e with roots, dependencies := .empty }

/-- Takes out all that an engine remembers: that, with the roots it was gathered for, and the
engine left behind. -/
def take (e : Engine) : Engine × Engine :=
  (e, .new e.roots)

/-- The engine with what another one remembered. -/
def restore (e : Engine) (old : Engine) : Engine where
  roots := e.roots
  dependencies :=
    if old.roots = e.roots then e.dependencies.merge old.dependencies else e.dependencies
  baselines := e.baselines.merge old.baselines
  times := e.times.merge old.times

/-- The last tick of the engine's clock. -/
def clock? (e : Engine) : Option Tick :=
  e.times.now?

end ModuleReload.Engine
