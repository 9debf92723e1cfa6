import ArturoInsight.Proofs.Service.View
import Mathlib.Logic.Function.Basic

/-! The open documents as a plain map. A workspace keeps an analysis of each document, but all that it knows is which
documents are open, in which order, the text and the version given last for each, and the linter given last. -/

namespace ArturoInsight

/-- What may happen to a workspace. -/
inductive Action where
  | opened (uri : String) (text : List Char) (version : Option Int)
  | changed (uri : String) (text : List Char) (version : Option Int)
  | closed (uri : String)
  | configured (linter : Linter)

/-- Which documents are open, in order, what was given last for each, and the linter given last. -/
structure Ledger where
  linter : Linter
  order : List String
  given : String → Option Given

namespace Ledger

def empty (linter : Linter) : Ledger := ⟨linter, [], fun _ => none⟩

def act (ledger : Ledger) : Action → Ledger
  | .opened uri text version | .changed uri text version =>
    { ledger with
      order := if uri ∈ ledger.order then ledger.order else ledger.order ++ [uri]
      given := Function.update ledger.given uri (some (text, version)) }
  | .closed uri =>
    { ledger with
      order := ledger.order.erase uri
      given := Function.update ledger.given uri none }
  | .configured linter => { ledger with linter }

def after (linter : Linter) (actions : List Action) : Ledger := actions.foldl act (empty linter)

end Ledger

namespace Workspace

def act (workspace : Workspace) : Action → Workspace
  | .opened uri text version | .changed uri text version => workspace.put uri text version
  | .closed uri => workspace.close uri
  | .configured linter => workspace.configure linter

def after (linter : Linter) (actions : List Action) : Workspace := actions.foldl act (empty linter)

/-- A document is looked at again, with its text and its version as they are. -/
def again (workspace : Workspace) (analysis : Analysis) : Workspace :=
  workspace.put analysis.uri analysis.text analysis.version

/-- The documents of a workspace are those of a ledger, each analysed under its linter. -/
structure Mirrors (workspace : Workspace) (ledger : Ledger) : Prop where
  linter : workspace.linter = ledger.linter
  order : workspace.uris = ledger.order
  once : workspace.uris.Nodup
  documents : ∀ uri, workspace.get? uri = (ledger.given uri).map fun given =>
    Analysis.ofText uri given.1 ledger.linter given.2

section Steps

variable {workspace : Workspace} {ledger : Ledger}

theorem uris_put (workspace : Workspace) (uri : String) (text : List Char) (version : Option Int) :
    (workspace.put uri text version).uris =
      if uri ∈ workspace.uris then workspace.uris else workspace.uris ++ [uri] :=
  Table.keys_put _ _ _

theorem uris_close (once : workspace.uris.Nodup) (uri : String) :
    (workspace.close uri).uris = workspace.uris.erase uri := by
  rw [once.erase_eq_filter]
  exact Table.keys_remove _ _

theorem uris_configure (workspace : Workspace) (linter : Linter) :
    (workspace.configure linter).uris = workspace.uris := by
  rw [uris, uris, Service.documents_configure, Table.keys_mapValues]

theorem Mirrors.put (mirrors : Mirrors workspace ledger) (uri : String) (text : List Char) (version : Option Int) :
    Mirrors (workspace.put uri text version) (ledger.act (.opened uri text version)) := by
  refine ⟨mirrors.linter, ?_, Table.nodup_keys_put mirrors.once _ _, fun other => ?_⟩
  · rw [uris_put, mirrors.order]
    rfl
  · dsimp only [Ledger.act]
    by_cases same : other = uri
    · subst same
      rw [Function.update_self, get?, Workspace.put, Table.get?_put_self, mirrors.linter]
      rfl
    · rw [Function.update_of_ne same, ← mirrors.documents]
      exact Table.get?_put_of_ne (Ne.symm same) _ _

theorem Mirrors.close (mirrors : Mirrors workspace ledger) (uri : String) :
    Mirrors (workspace.close uri) (ledger.act (.closed uri)) := by
  refine ⟨mirrors.linter, ?_, Table.nodup_keys_remove mirrors.once _, fun other => ?_⟩
  · rw [uris_close mirrors.once, mirrors.order]
    rfl
  · dsimp only [Ledger.act]
    by_cases same : other = uri
    · subst same
      rw [Function.update_self]
      exact Table.get?_remove_self _ _
    · rw [Function.update_of_ne same, ← mirrors.documents]
      exact Table.get?_remove_of_ne (Ne.symm same) _

theorem Mirrors.configure (mirrors : Mirrors workspace ledger) (linter : Linter) :
    Mirrors (workspace.configure linter) (ledger.act (.configured linter)) := by
  refine ⟨rfl, ?_, ?_, fun uri => ?_⟩
  · rw [uris_configure, mirrors.order]
    rfl
  · rw [uris_configure]
    exact mirrors.once
  · rw [Service.get?_configure, mirrors.documents, Option.map_map]
    rfl

theorem Mirrors.act (mirrors : Mirrors workspace ledger) (action : Action) :
    Mirrors (workspace.act action) (ledger.act action) := by
  cases action with
  | opened uri text version => exact mirrors.put uri text version
  | changed uri text version => exact mirrors.put uri text version
  | closed uri => exact mirrors.close uri
  | configured linter => exact mirrors.configure linter

theorem mirrors_after (linter : Linter) (actions : List Action) :
    Mirrors (after linter actions) (Ledger.after linter actions) := by
  suffices run : ∀ workspace ledger, Mirrors workspace ledger →
      Mirrors (actions.foldl Workspace.act workspace) (actions.foldl Ledger.act ledger) from
    run _ _ ⟨rfl, rfl, List.nodup_nil, fun _ => rfl⟩
  induction actions with
  | nil => exact fun _ _ mirrors => mirrors
  | cons action actions ih => exact fun _ _ mirrors => ih _ _ (mirrors.act action)

end Steps

section Observed

variable {workspace : Workspace} {ledger : Ledger} (mirrors : Mirrors workspace ledger)

include mirrors

theorem Mirrors.filed : ∀ entry ∈ workspace.documents, entry.2.uri = entry.1 := by
  intro entry member
  have found := mirrors.documents entry.1
  rw [get?, Table.get?_of_mem mirrors.once member, eq_comm, Option.map_eq_some_iff] at found
  obtain ⟨given, -, same⟩ := found
  rw [← same]
  rfl

theorem Mirrors.has_eq (uri : String) : workspace.documents.has uri = (ledger.given uri).isSome := by
  have known : workspace.documents.has uri = (workspace.get? uri).isSome := by
    rw [get?, Table.get?, Option.isSome_map, List.isSome_find?, Table.has]
  rw [known, mirrors.documents, Option.isSome_map]

theorem Mirrors.analyses_eq : workspace.analyses.map some = ledger.order.map workspace.get? := by
  rw [← mirrors.order, analyses, uris, Table.keys, List.map_map, List.map_map]
  exact List.map_congr_left fun entry member => (Table.get?_of_mem mirrors.once member).symm

theorem Mirrors.configure_eq (linter : Linter) :
    workspace.configure linter = workspace.analyses.foldl again { workspace with linter } := by
  have walks (analyses : List Analysis) (documents : Table String Analysis) :
      analyses.foldl again ⟨linter, documents⟩ = ⟨linter, analyses.foldl (fun changed analysis =>
        Table.put analysis.uri (.ofText analysis.uri analysis.text linter analysis.version) changed) documents⟩ := by
    induction analyses generalizing documents with
    | nil => rfl
    | cons analysis analyses ih => exact ih _
  rw [walks, analyses, Table.foldl_put mirrors.once mirrors.filed]
  rfl

end Observed

/-- How the order of the documents changes, and that a new linter changes what is found in them and nothing else. -/
structure Steady (workspace : Workspace) : Prop where
  kept : ∀ uri ∈ workspace.uris, ∀ text version, (workspace.put uri text version).uris = workspace.uris
  moved : ∀ uri text version,
    ((workspace.close uri).put uri text version).uris = workspace.uris.erase uri ++ [uri]
  unknown : ∀ uri ∉ workspace.uris, workspace.close uri = workspace
  walked : ∀ linter, workspace.configure linter = workspace.analyses.foldl again { workspace with linter }
  order : ∀ linter, (workspace.configure linter).uris = workspace.uris
  analyses : ∀ linter, (workspace.configure linter).analyses = workspace.analyses.map fun analysis =>
    Analysis.ofText analysis.uri analysis.text linter analysis.version

theorem Mirrors.steady {workspace : Workspace} {ledger : Ledger} (mirrors : Mirrors workspace ledger) :
    Steady workspace where
  kept uri known text version := by rw [uris_put, if_pos known]
  moved uri text version := by
    rw [uris_put, uris_close mirrors.once, if_neg mirrors.once.not_mem_erase]
  unknown uri missing := by
    have stays : workspace.documents.remove uri = workspace.documents := by
      refine List.filter_eq_self.2 fun entry member => ?_
      have differs : entry.1 ≠ uri := fun same => missing (same ▸ List.mem_map_of_mem member)
      simpa using differs
    rw [Workspace.close, stays]
  walked := mirrors.configure_eq
  order := uris_configure workspace
  analyses linter := by
    rw [analyses, analyses, Service.documents_configure, Table.mapValues, List.map_map, List.map_map]
    rfl

/-- After any actions a workspace shows what the ledger of the same actions holds: each open document analysed by the
linter given last, as many as are open, in order. -/
theorem shows_after (start : Linter) (actions : List Action) :
    Mirrors (after start actions) (Ledger.after start actions) ∧
      (∀ uri, (after start actions).documents.has uri = ((Ledger.after start actions).given uri).isSome) ∧
      (after start actions).documents.length = (Ledger.after start actions).order.length ∧
      (after start actions).analyses.map some = (Ledger.after start actions).order.map (after start actions).get? ∧
      Steady (after start actions) := by
  have mirrors := mirrors_after start actions
  refine ⟨mirrors, mirrors.has_eq, ?_, mirrors.analyses_eq, mirrors.steady⟩
  rw [← mirrors.order, uris, Table.keys, List.length_map]

end Workspace

end ArturoInsight
