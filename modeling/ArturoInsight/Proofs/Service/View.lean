import ArturoInsight.Proofs.Table
import ArturoInsight.Service.Basic
import Mathlib.Data.List.Induction

/-! What a client sees of the service after any events: the issues shown last for a document are those of
its text as it is, under the settings as they are. -/

namespace ArturoInsight

/-- What a client tells the service. -/
inductive Event where
  | initialized (options : Raw)
  | configured (settings : Raw)
  | opened (uri : String) (text : List Char) (version : Option Int)
  | changed (uri : String) (text : List Char) (version : Option Int)
  | closed (uri : String)

abbrev Given := List Char × Option Int

/-- The text of a document that is open after an event, where `known` is its text before it. -/
def Event.given? (uri : String) (known : Option Given) : Event → Option Given
  | .opened other text version | .changed other text version =>
    if other = uri then some (text, version) else known
  | .closed other => if other = uri then none else known
  | .initialized _ | .configured _ => known

/-- The text that a document was opened or changed to last, unless it was closed since. -/
def given? (uri : String) (events : List Event) : Option Given := events.foldl (Event.given? uri) none

/-- What a message shows of a document. -/
def Message.shown? (uri : String) : Message → Option (Option Int × List Issue)
  | .publish other version issues => if other = uri then some (version, issues) else none
  | .refuse _ | .warn _ => none

/-- What the messages have shown of a document last. -/
def shown? (uri : String) (sent : List Message) : Option (Option Int × List Issue) :=
  (sent.filterMap (Message.shown? uri)).getLast?

namespace Service

variable (validator : Settings.Validator)

def react (service : Service) : Event → Reply
  | .initialized options => service.configure validator options "initializationOptions"
  | .configured settings => service.configure validator settings "didChangeConfiguration"
  | .opened uri text version | .changed uri text version => service.put uri text version
  | .closed uri => service.close uri

/-- A fresh service after events, and all that it has sent. -/
def after (events : List Event) : Service × List Message :=
  events.foldl (fun (service, sent) event =>
    let reply := service.react validator event
    (reply.service, sent ++ reply.sent)) (fresh, [])

theorem after_append (events : List Event) (event : Event) : after validator (events ++ [event]) =
    (((after validator events).1.react validator event).service,
      (after validator events).2 ++ ((after validator events).1.react validator event).sent) := by
  rw [after, List.foldl_append]
  rfl

/-- The documents of a service are those that the events have left open, each analysed under its settings. -/
structure Analysed (events : List Event) (service : Service) : Prop where
  linter : service.workspace.linter = .ofSettings service.settings.diagnostics
  once : service.workspace.documents.keys.Nodup
  documents : ∀ uri, service.workspace.get? uri = (given? uri events).map fun given =>
    Analysis.ofText uri given.1 service.workspace.linter given.2

/-- What a client should see of a document, with nothing left of one that is closed. -/
def told : Option Analysis → Option Int × List Issue
  | some analysis => (analysis.version, analysis.issues)
  | none => (none, [])

def Shown (service : Service) (sent : List Message) : Prop :=
  ∀ uri, shown? uri sent = some (told (service.workspace.get? uri)) ∨
    service.workspace.get? uri = none ∧ shown? uri sent = none

theorem given?_append (uri : String) (events : List Event) (event : Event) :
    given? uri (events ++ [event]) = event.given? uri (given? uri events) := by
  rw [given?, List.foldl_append]
  rfl

section Documents

variable {events : List Event} {service : Service}

theorem Analysed.exists_given (analysed : Analysed events service) {entry : String × Analysis}
    (member : entry ∈ service.workspace.documents) :
    ∃ given : Given, Analysis.ofText entry.1 given.1 service.workspace.linter given.2 = entry.2 := by
  have found := analysed.documents entry.1
  rw [Workspace.get?, Table.get?_of_mem analysed.once member, eq_comm, Option.map_eq_some_iff] at found
  obtain ⟨given, -, same⟩ := found
  exact ⟨given, same⟩

theorem Analysed.filed (analysed : Analysed events service) :
    ∀ entry ∈ service.workspace.documents, entry.2.uri = entry.1 := by
  intro entry member
  obtain ⟨given, same⟩ := analysed.exists_given member
  rw [← same]
  rfl

theorem documents_configure (workspace : Workspace) (linter : Linter) :
    (workspace.configure linter).documents = Table.mapValues (fun analysis : Analysis =>
      Analysis.ofText analysis.uri analysis.text linter analysis.version) workspace.documents := rfl

theorem get?_configure (workspace : Workspace) (linter : Linter) (uri : String) :
    (workspace.configure linter).get? uri = (workspace.get? uri).map fun analysis =>
      Analysis.ofText analysis.uri analysis.text linter analysis.version := by
  rw [Workspace.get?, documents_configure, Table.get?_mapValues]
  rfl

theorem Analysed.install (analysed : Analysed events service) (settings : Settings) (notices : List Notice)
    {event : Event} (silent : ∀ uri known, event.given? uri known = known) :
    Analysed (events ++ [event]) (service.install settings notices).service := by
  refine ⟨rfl, ?_, fun uri => ?_⟩
  · rw [Service.install, documents_configure, Table.keys_mapValues]
    exact analysed.once
  · rw [given?_append, silent, Service.install, get?_configure, analysed.documents, Option.map_map]
    rfl

theorem Analysed.unsaid (analysed : Analysed events service) {event : Event}
    (silent : ∀ uri known, event.given? uri known = known) : Analysed (events ++ [event]) service :=
  ⟨analysed.linter, analysed.once, fun uri => by rw [given?_append, silent, analysed.documents]⟩

theorem Analysed.configure (analysed : Analysed events service) (payload : Raw) (source : String)
    {event : Event} (silent : ∀ uri known, event.given? uri known = known) :
    Analysed (events ++ [event]) (service.configure validator payload source).service := by
  unfold Service.configure
  cases Settings.ofClient? payload with
  | none => exact analysed.unsaid silent
  | some override => exact analysed.install _ _ silent

theorem Analysed.put (analysed : Analysed events service) (uri : String) (text : List Char)
    (version : Option Int) {event : Event}
    (tells : ∀ other known, event.given? other known = if uri = other then some (text, version) else known) :
    Analysed (events ++ [event]) (service.put uri text version).service := by
  refine ⟨analysed.linter, Table.nodup_keys_put analysed.once _ _, fun other => ?_⟩
  have before := analysed.documents other
  rw [Workspace.get?] at before
  rw [given?_append, tells, Workspace.get?, Service.put, Workspace.put]
  by_cases same : uri = other
  · subst same
    rw [Table.get?_put_self, if_pos rfl]
    rfl
  · rw [Table.get?_put_of_ne same, if_neg same]
    exact before

theorem Analysed.close (analysed : Analysed events service) (uri : String) :
    Analysed (events ++ [.closed uri]) (service.close uri).service := by
  refine ⟨analysed.linter, Table.nodup_keys_remove analysed.once _, fun other => ?_⟩
  have before := analysed.documents other
  rw [Workspace.get?] at before
  rw [given?_append, Event.given?, Workspace.get?, Service.close, Workspace.close]
  by_cases same : uri = other
  · subst same
    rw [Table.get?_remove_self, if_pos rfl]
    rfl
  · rw [Table.get?_remove_of_ne same, if_neg same]
    exact before

theorem Analysed.react (analysed : Analysed events service) (event : Event) :
    Analysed (events ++ [event]) (service.react validator event).service := by
  cases event with
  | initialized options => exact analysed.configure _ _ _ fun _ _ => rfl
  | configured settings => exact analysed.configure _ _ _ fun _ _ => rfl
  | opened uri text version => exact analysed.put uri text version fun _ _ => rfl
  | changed uri text version => exact analysed.put uri text version fun _ _ => rfl
  | closed uri => exact analysed.close uri

theorem Analysed.install_self (analysed : Analysed events service) (notices : List Notice) :
    (service.install service.settings notices).service = service := by
  have again : (service.workspace.configure service.workspace.linter).documents =
      service.workspace.documents := by
    rw [documents_configure]
    refine (List.map_congr_left fun entry member => ?_).trans (List.map_id _)
    obtain ⟨given, same⟩ := analysed.exists_given member
    obtain ⟨uri, analysis⟩ := entry
    obtain rfl : Analysis.ofText uri given.1 service.workspace.linter given.2 = analysis := same
    rfl
  obtain ⟨settings, linter, documents⟩ := service
  obtain rfl : linter = .ofSettings settings.diagnostics := analysed.linter
  exact congrArg (fun documents => Service.mk settings ⟨_, documents⟩) again

end Documents

section Messages

theorem shown?_append (uri : String) (sent more : List Message) :
    shown? uri (sent ++ more) = (shown? uri more).or (shown? uri sent) := by
  rw [shown?, shown?, shown?, List.filterMap_append, List.getLast?_append]

theorem shown?_publish (uri other : String) (version : Option Int) (issues : List Issue) :
    shown? uri [.publish other version issues] = if other = uri then some (version, issues) else none := by
  by_cases same : other = uri <;> simp [shown?, Message.shown?, same]

theorem shown?_analyses {documents : Table String Analysis} (once : documents.keys.Nodup)
    (filed : ∀ entry ∈ documents, entry.2.uri = entry.1) (uri : String) :
    shown? uri (documents.map fun entry => publication entry.2) =
      (documents.get? uri).map fun analysis => (analysis.version, analysis.issues) := by
  induction documents with
  | nil => rfl
  | cons entry rest ih =>
    obtain ⟨fresh, later⟩ := List.nodup_cons.1 once
    obtain ⟨owner, more⟩ := List.forall_mem_cons.1 filed
    rw [List.map_cons, ← List.singleton_append, shown?_append, ih later more, Table.get?_cons, publication,
      shown?_publish, owner]
    by_cases same : entry.1 = uri
    · have alone : Table.get? rest uri = none := by
        apply Table.get?_eq_none
        rwa [← same]
      rw [alone, if_pos same, if_pos (by simpa using same)]
      rfl
    · rw [if_neg same, if_neg (by simpa using same), Option.or_none]

variable {events : List Event} {service : Service} {sent : List Message}

/-- Messages about the documents that have changed, after the messages so far. -/
theorem Shown.append (shown : Shown service sent) {new : Service} {more : List Message}
    (step : ∀ uri, shown? uri more = some (told (new.workspace.get? uri)) ∨
      new.workspace.get? uri = service.workspace.get? uri ∧ shown? uri more = none) :
    Shown new (sent ++ more) := by
  intro uri
  rw [shown?_append]
  obtain fresh | ⟨same, silent⟩ := step uri
  · exact .inl (by rw [fresh, Option.some_or])
  · rw [same, silent, Option.none_or]
    exact shown uri

theorem Shown.install (shown : Shown service sent) (analysed : Analysed events service) (settings : Settings)
    (notices : List Notice) :
    Shown (service.install settings notices).service (sent ++ (service.install settings notices).sent) := by
  apply shown.append
  intro uri
  have kept : Analysed (events ++ [.configured .null]) (service.install settings notices).service :=
    analysed.install settings notices fun _ _ => rfl
  have published : shown? uri (service.install settings notices).sent =
      ((service.install settings notices).service.workspace.get? uri).map
        fun analysis => (analysis.version, analysis.issues) := by
    have sent : (service.install settings notices).sent =
        (service.install settings notices).service.workspace.documents.map fun entry => publication entry.2 :=
      List.map_map
    rw [sent]
    exact shown?_analyses kept.once kept.filed uri
  cases before : service.workspace.get? uri with
  | none =>
    have after : (service.install settings notices).service.workspace.get? uri = none := by
      rw [Service.install, get?_configure, before, Option.map_none]
    rw [published, after]
    exact .inr ⟨rfl, rfl⟩
  | some analysis =>
    have after := get?_configure service.workspace (.ofSettings settings.diagnostics) uri
    rw [before] at after
    rw [published]
    exact .inl (by rw [Service.install, after]; rfl)

theorem Shown.configure (shown : Shown service sent) (analysed : Analysed events service) (payload : Raw)
    (source : String) :
    Shown (service.configure validator payload source).service
      (sent ++ (service.configure validator payload source).sent) := by
  unfold Service.configure
  cases Settings.ofClient? payload with
  | none =>
    rw [List.append_nil]
    exact shown
  | some override => exact shown.install analysed _ _

theorem Shown.put (shown : Shown service sent) (uri : String) (text : List Char) (version : Option Int) :
    Shown (service.put uri text version).service (sent ++ (service.put uri text version).sent) := by
  apply shown.append
  intro other
  have here : (service.workspace.put uri text version).get? uri =
      some (.ofText uri text service.workspace.linter version) := Table.get?_put_self _ _ _
  have sent : (service.put uri text version).sent =
      [publication (.ofText uri text service.workspace.linter version)] := by
    rw [Service.put, here]
    rfl
  rw [sent, publication, shown?_publish]
  by_cases same : uri = other
  · subst same
    exact .inl (by rw [Service.put, here]; exact if_pos rfl)
  · exact .inr ⟨Table.get?_put_of_ne same _ _, if_neg same⟩

theorem Shown.close (shown : Shown service sent) (uri : String) :
    Shown (service.close uri).service (sent ++ (service.close uri).sent) := by
  apply shown.append
  intro other
  rw [Service.close, shown?_publish]
  by_cases same : uri = other
  · subst same
    have none : (service.workspace.close uri).get? uri = none := Table.get?_remove_self _ _
    exact .inl (by rw [none]; exact if_pos rfl)
  · exact .inr ⟨Table.get?_remove_of_ne same _, if_neg same⟩

theorem Shown.react (shown : Shown service sent) (analysed : Analysed events service) (event : Event) :
    Shown (service.react validator event).service (sent ++ (service.react validator event).sent) := by
  cases event with
  | initialized options => exact shown.configure _ analysed _ _
  | configured settings => exact shown.configure _ analysed _ _
  | opened uri text version => exact shown.put uri text version
  | changed uri text version => exact shown.put uri text version
  | closed uri => exact shown.close uri

end Messages

theorem invariant_after (events : List Event) :
    Analysed events (after validator events).1 ∧ Shown (after validator events).1 (after validator events).2 := by
  induction events using List.reverseRecOn with
  | nil => exact ⟨⟨rfl, List.nodup_nil, fun _ => rfl⟩, fun _ => .inr ⟨rfl, rfl⟩⟩
  | append_singleton events event ih =>
    rw [after_append]
    exact ⟨ih.1.react validator event, ih.2.react validator ih.1 event⟩

theorem configure_of_refused {events : List Event} {service : Service} (analysed : Analysed events service)
    {payload : Raw} (refused : ∀ override ∈ Settings.ofClient? payload,
      ∃ error, service.settings.merged validator override = .error error) (source : String) :
    (service.configure validator payload source).service = service := by
  unfold Service.configure
  cases said : Settings.ofClient? payload with
  | none => rfl
  | some override =>
    obtain ⟨error, fails⟩ := refused override said
    have stays : service.settings.apply validator override source = (service.settings, [.settingsIgnored source]) := by
      rw [Settings.apply, fails]
    simp only [stays]
    exact analysed.install_self _

/-- Whatever settings are valid, after any events the linter is that of the settings, every open document is analysed
by it as its text was given last, and the last that was shown of a document is what its analysis says, or nothing once
it is closed. What a client says of the settings changes nothing at all where it is empty or refused. -/
theorem view_after (validator : Settings.Validator) (events : List Event) :
    (after validator events).1.workspace.linter = .ofSettings (after validator events).1.settings.diagnostics ∧
      (∀ uri, (after validator events).1.workspace.get? uri = (given? uri events).map fun given =>
        Analysis.ofText uri given.1 (after validator events).1.workspace.linter given.2) ∧
      (∀ uri, ∀ analysis ∈ (after validator events).1.workspace.get? uri,
        shown? uri (after validator events).2 = some (analysis.version, analysis.issues)) ∧
      (∀ uri, (after validator events).1.workspace.get? uri = none →
        ∀ shown ∈ shown? uri (after validator events).2, shown = (none, [])) ∧
      ∀ payload source, (∀ override ∈ Settings.ofClient? payload,
        ∃ error, (after validator events).1.settings.merged validator override = .error error) →
          ((after validator events).1.configure validator payload source).service = (after validator events).1 := by
  obtain ⟨analysed, shown⟩ := invariant_after validator events
  refine ⟨analysed.linter, analysed.documents, ?_, ?_, fun payload source refused =>
    configure_of_refused validator analysed refused source⟩
  · intro uri analysis found
    rw [Option.mem_def] at found
    obtain seen | ⟨closed, -⟩ := shown uri
    · rw [seen, found]
      rfl
    · rw [closed] at found
      contradiction
  · intro uri closed seen found
    rw [Option.mem_def] at found
    obtain last | ⟨-, never⟩ := shown uri
    · rw [last, closed] at found
      exact (Option.some.inj found).symm
    · rw [never] at found
      contradiction

end Service

end ArturoInsight
