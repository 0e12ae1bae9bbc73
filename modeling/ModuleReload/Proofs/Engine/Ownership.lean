import ModuleReload.Proofs.Engine.Line

/-!
# Dependencies are owned

The dependencies of a module are discovered once and remembered, filtered by the roots that the
engine owns at that time. The roots may change later, and what is remembered may be handed over to
an engine with other roots. Still, every list that an engine gives is one that its present roots
admit (`Surroundings.Admits`): it names no module twice and not the module itself, and what the
module does not declare has a source under one of the roots or beside the package of the module.

The invariant is on what is remembered (`Surroundings.Guards`). Each operation that changes the
roots, or takes over what was remembered, drops what was filtered by other roots. So the invariant
holds of all engines that come about (`Engine.Kept.guards`), as long as files and declarations stay
as they are (`Surroundings`): all the while, modules may be reloaded, fail to be, and be loaded by
other hosts.
-/

namespace ModuleReload

variable {σ τ : Type} {h : Host σ τ}

/-! ## What stays -/

/-- What a host has done to its state since some other state. -/
def Host.Later (h : Host σ τ) : σ → σ → Prop :=
  Relation.ReflTransGen fun s s' ↦ ∃ m, s' = (h.attempt s m).2

/-- What stays as it is: the files, and for each name the file and the package of its module and the
names that it declares. -/
structure Surroundings where
  files : FileSystem
  file : String → Option Path
  package : String → Option String
  declares : String → List String

namespace Surroundings

variable {env : Surroundings} {roots : OwnedRoots} {x m c : Module} {children : List Module}

/-- A handle on the module that the surroundings have for its name. -/
structure Fits (env : Surroundings) (m : Module) : Prop where
  file : m.file = env.file m.name
  package : m.package = env.package m.name

/-- A host in some state whose modules, files and declarations are those of the surroundings,
whatever it reloads. -/
structure Hosts (env : Surroundings) (h : Host σ τ) (state : σ) : Prop where
  files : h.files = env.files
  modules : ∀ m ∈ h.modules, env.Fits m
  declares : ∀ state', h.Later state state' → ∀ m, env.Fits m →
    h.declares state' m = env.declares m.name

theorem Hosts.later {state state' : σ} (hh : env.Hosts h state) (hlater : h.Later state state') :
    env.Hosts h state' :=
  ⟨hh.files, hh.modules, fun state'' hlater' ↦ hh.declares state'' (hlater.trans hlater')⟩

/-! ## What roots admit -/

/-- That a module declares a name, as it stands or resolved against the module. -/
def Declares (env : Surroundings) (x : Module) (name : String) : Prop :=
  ∃ given ∈ env.declares x.name, name = given ∨ Name.resolve x.packageName x.name given = .ok name

/-- That a module has a source that a user may edit, under one of the roots or under the directory
that holds the package of another module. -/
def Owns (env : Surroundings) (roots : OwnedRoots) (x c : Module) : Prop :=
  ∃ source, Dependencies.sourceOf? env.files c = some source ∧
    (roots.contains env.files source = true ∨
      ∃ own, Dependencies.sourceOf? env.files x = some own ∧
        (env.files.normalize source).isUnder
          (env.files.normalize (Place.packageRoot env.files own)) = true)

/-- That a list may be that of the dependencies of a module for an engine that owns certain
roots. -/
structure Admits (env : Surroundings) (roots : OwnedRoots) (x : Module) (children : List Module) :
    Prop where
  nodup : (children.map Module.name).Nodup
  ne : ∀ c ∈ children, c.name ≠ x.name
  fits : ∀ c ∈ children, env.Fits c
  owned : ∀ c ∈ children, env.Declares x c.name ∨ env.Owns roots x c

theorem Admits.of_name (ha : env.Admits roots m children) (hm : env.Fits m) (hx : env.Fits x)
    (hname : x.name = m.name) : env.Admits roots x children := by
  have hpackage : x.packageName = m.packageName := by
    rw [Module.packageName, Module.packageName, hx.package, hm.package, hname]
  have hsource : Dependencies.sourceOf? env.files x = Dependencies.sourceOf? env.files m := by
    rw [Dependencies.sourceOf?, Dependencies.sourceOf?, hx.file, hm.file, hname]
  refine ⟨ha.nodup, fun c hc ↦ hname ▸ ha.ne c hc, ha.fits, fun c hc ↦ ?_⟩
  rw [Declares, Owns, hname, hpackage, hsource]
  exact ha.owned c hc

end Surroundings

/-! ## Discovery -/

namespace Dependencies

theorem name_of_module? {name : String} {c : Module} (hc : h.module? name = some c) :
    c.name = name := by
  simpa using List.find?_some hc

theorem nodup_eraseDups (names : List String) : names.eraseDups.Nodup := by
  induction hlength : names.length using Nat.strong_induction_on generalizing names with
  | _ n ih =>
    cases names with
    | nil => exact List.nodup_nil
    | cons name names =>
      rw [List.eraseDups_cons, List.nodup_cons]
      refine ⟨by simp [List.mem_eraseDups], ih _ ?_ _ rfl⟩
      rw [← hlength, List.length_cons]
      exact Nat.lt_succ_of_le (List.length_filter_le _ _)

theorem nodup_filterMap_module? {names : List String} (hnames : names.Nodup) :
    ((names.filterMap h.module?).map Module.name).Nodup := by
  rw [List.map_filterMap]
  refine hnames.filterMap fun n n' name hn hn' ↦ ?_
  obtain ⟨c, hc, rfl⟩ := Option.map_eq_some_iff.mp hn
  obtain ⟨c', hc', hname⟩ := Option.map_eq_some_iff.mp hn'
  rw [← name_of_module? hc, ← name_of_module? hc', hname]

theorem owns_of_mem_importedNames {env : Surroundings} {roots : OwnedRoots} {x c : Module}
    (hfiles : h.files = env.files) (hname : c.name ∈ (importedNames h roots x).1)
    (hc : h.module? c.name = some c) : env.Owns roots x c := by
  rw [importedNames, hfiles] at hname
  cases hown : sourceOf? env.files x with
  | none => simp [hown] at hname
  | some own =>
    simp only [hown] at hname
    have howned := (List.mem_filter.mp hname).2
    rw [isOwned, hc, hfiles] at howned
    cases hsource : sourceOf? env.files c with
    | none => simp [hsource] at howned
    | some source =>
      simp only [Option.bind_some, hsource, OwnedRoots.containsWith, Option.any_some,
        Bool.or_eq_true] at howned
      exact ⟨source, hsource, howned.imp id fun hunder ↦ ⟨own, hown, hunder⟩⟩

theorem declares_of_mem_declaredAs {env : Surroundings} {x : Module} {given name : String}
    (hgiven : given ∈ env.declares x.name) (hname : name ∈ declaredAs x given) :
    env.Declares x name := by
  refine ⟨given, hgiven, ?_⟩
  rw [declaredAs] at hname
  split at hname
  case isTrue => simp at hname
  case isFalse =>
    split at hname
    case h_1 resolved hresolved =>
      split at hname
      case isTrue => exact .inl (List.mem_singleton.mp hname)
      case isFalse =>
        rcases List.mem_pair.mp hname with rfl | rfl
        · exact .inl rfl
        · exact .inr hresolved
    case h_2 => exact .inl (List.mem_singleton.mp hname)

/-- **What is discovered is admitted** by the roots it was discovered for. -/
theorem admits_discover {env : Surroundings} {roots : OwnedRoots} {state : σ} {x : Module}
    (hh : env.Hosts h state) (hx : env.Fits x) :
    env.Admits roots x (discover h roots state x).1 := by
  have hdeclares : h.declares state x = env.declares x.name := hh.declares state .refl x hx
  have hfound : ∀ c ∈ (discover h roots state x).1, h.module? c.name = some c ∧ c.name ≠ x.name ∧
      (c.name ∈ (importedNames h roots x).1 ∨
        ∃ given ∈ env.declares x.name, c.name ∈ declaredAs x given) := by
    intro c hc
    obtain ⟨name, hname, hmodule⟩ := List.mem_filterMap.mp hc
    obtain rfl := name_of_module? hmodule
    rw [List.mem_eraseDups, List.mem_filter, List.mem_append, List.mem_flatMap, hdeclares] at hname
    exact ⟨hmodule, of_decide_eq_true hname.2, hname.1⟩
  refine ⟨nodup_filterMap_module? (nodup_eraseDups _), fun c hc ↦ (hfound c hc).2.1, fun c hc ↦ ?_,
    fun c hc ↦ ?_⟩
  · exact hh.modules c (List.mem_of_find?_eq_some (hfound c hc).1)
  · obtain ⟨hmodule, -, himported | ⟨given, hgiven, hname⟩⟩ := hfound c hc
    · exact .inr (owns_of_mem_importedNames hh.files himported hmodule)
    · exact .inl (declares_of_mem_declaredAs hgiven hname)

end Dependencies

/-! ## What is remembered -/

namespace Surroundings

variable {env : Surroundings} {roots : OwnedRoots} {e old : Engine} {x m : Module}
  {children : List Module} {state : σ} {r : Run σ τ}

/-- That whatever an engine remembers is admitted by the roots it has now. -/
def Guards (env : Surroundings) (e : Engine) : Prop :=
  ∀ x, env.Fits x → ∀ children, e.dependencies.get? x.name = some children →
    env.Admits e.roots x children

theorem Guards.childrenOf (he : env.Guards e) (hh : env.Hosts h state) (hx : env.Fits x) :
    env.Admits e.roots x (e.childrenOf h state x) := by
  rw [Engine.childrenOf]
  cases hknown : e.dependencies.get? x.name with
  | some children => exact he x hx children hknown
  | none => exact Dependencies.admits_discover hh hx

theorem Guards.of_empty (hnone : e.dependencies = .empty) : env.Guards e := by
  intro x _ children hknown
  simp [hnone] at hknown

theorem Guards.setRoots (he : env.Guards e) (roots : OwnedRoots) :
    env.Guards (e.setRoots roots) := by
  rw [Engine.setRoots]
  split
  case isTrue => exact he
  case isFalse => exact .of_empty rfl

theorem Guards.restore (he : env.Guards e) (hold : env.Guards old) :
    env.Guards (e.restore old) := by
  intro x hx children hknown
  rw [Engine.restore] at hknown ⊢
  dsimp only at hknown ⊢
  split at hknown
  case isTrue hroots =>
    rw [Table.get?_merge] at hknown
    cases hmine : e.dependencies.get? x.name with
    | some mine =>
      obtain rfl : mine = children := by simpa [hmine] using hknown
      exact he x hx mine hmine
    | none =>
      rw [← hroots]
      exact hold x hx children (by simpa [hmine] using hknown)
  case isFalse => exact he x hx children hknown

/-! ## What a call finds -/

/-- That a run goes on for a host of the surroundings, with the same roots, and that all the
dependencies it has found are admitted by them. -/
structure Watches (env : Surroundings) (h : Host σ τ) (roots : OwnedRoots) (r : Run σ τ) :
    Prop where
  hosts : env.Hosts h r.state
  roots_eq : r.engine.roots = roots
  guards : env.Guards r.engine
  findings : ∀ p ∈ Event.findings r.events, env.Admits roots p.1 p.2

namespace Watches

theorem start (he : env.Guards e) (hh : env.Hosts h state) :
    env.Watches h e.roots (.start e state) :=
  ⟨hh, rfl, he, by simp [Run.start, Event.findings]⟩

theorem childrenOf (hr : env.Watches h roots r) (hm : env.Fits m) :
    env.Watches h roots (r.childrenOf h m).2 := by
  have hasks := Walk.asks_childrenOf h m r
  have hadmits : env.Admits r.engine.roots m (r.engine.childrenOf h r.state m) :=
    hr.guards.childrenOf hr.hosts hm
  refine ⟨hasks.state ▸ hr.hosts, hasks.roots.trans hr.roots_eq, fun x hx children hknown ↦ ?_, ?_⟩
  · rw [Walk.childrenOf_dependencies_get?] at hknown
    rw [hasks.roots]
    by_cases hname : x.name = m.name
    · rw [hname, if_pos rfl] at hknown
      obtain rfl := Option.some.inj hknown
      exact hadmits.of_name hm hx hname
    · rw [if_neg hname] at hknown
      exact hr.guards x hx children hknown
  · rw [Walk.findings_childrenOf, List.forall_mem_append, List.forall_mem_singleton]
    exact ⟨hr.findings, hr.roots_eq ▸ hadmits⟩

theorem isStale (hr : env.Watches h roots r) (m : Module) :
    env.Watches h roots (r.isStale h m).2 := by
  rw [Run.isStale_eq]
  exact ⟨hr.hosts, hr.roots_eq, hr.guards, by simpa [Event.findings] using hr.findings⟩

theorem say (hr : env.Watches h roots r) (topic : String) (level : Level) (text : String) :
    env.Watches h roots (r.say topic level text) :=
  ⟨hr.hosts, hr.roots_eq, hr.guards, by simpa [Run.say, Run.log, Event.findings] using hr.findings⟩

/-- A reload forgets the dependencies of its module, whether or not it succeeds. -/
theorem reloadAt (hr : env.Watches h roots r) (tick : Tick) (m : Module) :
    env.Watches h roots (r.reloadAt h tick m).2 := by
  obtain ⟨engine, es, heq, hroots, hdependencies, hes, -⟩ := r.exists_reloadAt h tick m
  rw [heq]
  refine ⟨hr.hosts.later (.single ⟨m, rfl⟩), hroots.trans hr.roots_eq,
    fun x hx children hknown ↦ ?_, ?_⟩
  · rw [hdependencies, Table.get?_erase] at hknown
    rw [hroots]
    split at hknown
    case isTrue => simp at hknown
    case isFalse => exact hr.guards x hx children hknown
  · rw [Event.findings_append, hes, List.append_nil]
    exact hr.findings

theorem keeping (env : Surroundings) (h : Host σ τ) (roots : OwnedRoots) :
    Run.Keeping h env.Fits (env.Watches h roots) where
  childrenOf m r hm hr := by
    refine ⟨hr.childrenOf hm, fun c hc ↦ ?_⟩
    rw [Walk.childrenOf_fst] at hc
    exact (hr.guards.childrenOf hr.hosts hm).fits c hc
  isStale m r _ hr := hr.isStale m
  say topic level text r _ hr := hr.say topic level text
  tick r hr := ⟨hr.hosts, hr.roots_eq, hr.guards, hr.findings⟩
  reloadAt tick m r _ hr := hr.reloadAt tick m

end Watches

end Surroundings

/-! ## Engines that have come about -/

namespace Engine

def Request.module : Request → Module
  | childrenOf m => m
  | isStale m => m
  | isOutdated m _ => m
  | reload m => m
  | autoreload m _ => m

variable {env : Surroundings} {e : Engine} {state : σ}

theorem Request.watches (he : env.Guards e) (hh : env.Hosts h state) (request : Request)
    (hm : env.Fits request.module) : env.Watches h e.roots (request.run h (.start e state)) := by
  have hkeeping := Surroundings.Watches.keeping env h e.roots
  have hstart : env.Watches h e.roots (.start e state) := .start he hh
  cases request with
  | childrenOf m => exact hstart.childrenOf hm
  | isStale m => exact hstart.isStale m
  | isOutdated m recursive => exact hkeeping.isOutdated hm recursive hstart
  | reload m => exact hkeeping.reload hm hstart
  | autoreload m force => exact hkeeping.autoreload hm force hstart

/-- The engines that a new one can become by its operations while the surroundings stay. What it
remembers may come from another such engine. -/
inductive Kept (env : Surroundings) : Engine → Prop
  | new (roots : OwnedRoots) : Kept env (.new roots)
  | request {σ τ : Type} {h : Host σ τ} {state : σ} (hh : env.Hosts h state) (request : Request)
      (hm : env.Fits request.module) {e : Engine} (he : Kept env e) :
      Kept env (request.run h (.start e state)).engine
  | setRoots (roots : OwnedRoots) {e : Engine} (he : Kept env e) : Kept env (e.setRoots roots)
  | forgetDependencies {e : Engine} (he : Kept env e) : Kept env e.forgetDependencies
  | take {e : Engine} (he : Kept env e) : Kept env e.take.2
  | restore {e old : Engine} (he : Kept env e) (hold : Kept env old) :
      Kept env (e.restore old.take.1)

namespace Kept

theorem guards (he : Kept env e) : env.Guards e := by
  induction he with
  | new roots => exact .of_empty rfl
  | request hh request hm _ ih => exact (request.watches ih hh hm).guards
  | setRoots roots _ ih => exact ih.setRoots roots
  | forgetDependencies _ _ => exact .of_empty rfl
  | take _ _ => exact .of_empty rfl
  | restore _ _ ih ihold => exact ih.restore ihold

/-- **Modules that are not owned never enter the graph.** Whatever has been done to an engine while
files and declarations stayed, each list of dependencies that it gives, and each that it goes by in
any of its operations, is admitted by the roots that it has then. -/
theorem admits_findings (he : Kept env e) (hh : env.Hosts h state) :
    (∀ x, env.Fits x → env.Admits e.roots x ((Run.start e state : Run σ τ).childrenOf h x).1) ∧
      ∀ request : Request, env.Fits request.module →
        ∀ p ∈ Event.findings (request.run h (.start e state)).events,
        env.Admits e.roots p.1 p.2 := by
  refine ⟨fun x hx ↦ ?_, fun request hm ↦ (request.watches he.guards hh hm).findings⟩
  rw [Walk.childrenOf_fst]
  exact he.guards.childrenOf hh hx

end Kept

end Engine

/-! ## A dependency in another directory -/

/-- Two directories with a source each, the first of which imports the second. -/
def FileSystem.apart : FileSystem :=
  ⟨[(["w"], .directory 0), (["w", "a.py"], .file (.text "import b\n") 0), (["x"], .directory 0),
    (["x", "b.py"], .file (.text "") 0)], .root⟩

/-- The source that imports the other one. -/
def Path.near : Path := ⟨true, ["w", "a.py"]⟩

/-- The source that is imported. -/
def Path.far : Path := ⟨true, ["x", "b.py"]⟩

/-- The module that imports the other one. -/
def Module.near : Module := ⟨0, "a", some .near, none⟩

/-- The module that is imported. -/
def Module.far : Module := ⟨1, "b", some .far, none⟩

def Host.apart : Host Unit Unit where
  files := .apart
  modules := [.near, .far]
  declares _ _ := []
  save _ _ := (none, ())
  reinitialize _ _ := (none, ())
  restore _ _ _ := ()

/-- What stays for both. -/
def Surroundings.apart : Surroundings where
  files := .apart
  file n := if n = "a" then some .near else some .far
  package _ := none
  declares _ := []

theorem Surroundings.hosts_apart : Surroundings.apart.Hosts Host.apart () where
  files := rfl
  modules m hm := by
    rcases List.mem_pair.mp hm with rfl | rfl
    · exact ⟨rfl, rfl⟩
    · exact ⟨rfl, rfl⟩
  declares _ _ _ _ := rfl

namespace Engine

/-- An engine that owns the second directory and has been asked for the dependencies of the first
module. -/
def owner : Engine :=
  (Request.run Host.apart (.start (.new ⟨[⟨true, ["x"]⟩]⟩) ()) (.childrenOf .near)).engine

/-- An engine that owns the first directory and takes over from the other one. -/
def heir : Engine :=
  (Engine.new ⟨[⟨true, ["w"]⟩]⟩).restore owner.take.1

/-- An engine that owns the second directory finds the second module. One that owns the first takes
over from it, and does not. -/
theorem apart_admits :
    Kept .apart owner ∧ ((Run.start owner () : Run Unit Unit).childrenOf .apart .near).1 = [.far] ∧
      Surroundings.apart.Admits owner.roots .near [.far] ∧
      Kept .apart heir ∧ ((Run.start heir () : Run Unit Unit).childrenOf .apart .near).1 = [] ∧
      Surroundings.apart.Admits heir.roots .near [] := by
  have hnear : Surroundings.apart.Fits .near := ⟨rfl, rfl⟩
  have howner : Kept .apart owner :=
    .request Surroundings.hosts_apart (.childrenOf .near) hnear (.new _)
  have hheir : Kept .apart heir := .restore (.new _) howner
  have hfar : ((Run.start owner () : Run Unit Unit).childrenOf .apart .near).1 = [.far] := by
    decide +kernel
  have hnone : ((Run.start heir () : Run Unit Unit).childrenOf .apart .near).1 = [] := by
    decide +kernel
  exact ⟨howner, hfar, hfar ▸ (howner.admits_findings Surroundings.hosts_apart).1 _ hnear, hheir,
    hnone, hnone ▸ (hheir.admits_findings Surroundings.hosts_apart).1 _ hnear⟩

end Engine

end ModuleReload
