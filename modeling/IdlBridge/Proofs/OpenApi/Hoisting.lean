import IdlBridge.Proofs.OpenApi.Servers

/-! # Servers are moved up in one pass

    Servers are moved in two tiers: from the operations of a path to the path, and from all of them
    to the document.  The first tier clears what the second one has counted, so a second pass sees
    another document.  It still finds nothing to move: a path that has been gone through agrees on
    no server any more (`not_agrees_hoistOperations`), because it is either cleared or has several
    servers to choose from, and paths of which none agrees cannot agree with each other either
    (`soleServersOfPaths_ne_singleton`).

    Where all operations that declare a server declare the same one, the document takes it over and
    nothing below it declares a server.
-/

namespace IdlBridge.OpenApi.Object

variable {doc item op : Object} {url : Text}

/-! ## Operations of a path -/

theorem mem_operations {v : Member} :
    (v, op) ∈ item.operations ↔ v ∈ verbs ∧ item.object? v = some op := by
  unfold operations
  rw [List.mem_filterMap]
  constructor
  · rintro ⟨v', hv', hop⟩
    obtain ⟨op', hget, heq⟩ := Option.map_eq_some_iff.1 hop
    cases heq
    exact ⟨hv', hget⟩
  · rintro ⟨hv, hop⟩
    exact ⟨v, hv, by rw [hop]; rfl⟩

theorem operations_withoutServers (item : Object) :
    item.withoutServers.operations = item.operations := by
  unfold operations
  refine List.filterMap_congr fun v hv => ?_
  rw [withoutServers, object?_set_of_ne (ne_servers_of_mem_verbs hv)]

theorem soleServers_withoutServers (item : Object) :
    item.withoutServers.soleServers = item.soleServers := by
  unfold soleServers
  rw [operations_withoutServers]

theorem nodup_addSoleServer {urls : List Text} (h : urls.Nodup) (op : Object) :
    (addSoleServer urls op).Nodup := by
  unfold addSoleServer
  split
  · exact Text.nodup_insertNew h _
  · exact h

theorem nodup_soleServers (item : Object) : item.soleServers.Nodup := by
  have hloop : ∀ (ops : List (Member × Object)) (urls : List Text), urls.Nodup →
      (ops.foldl (fun urls e => addSoleServer urls e.2) urls).Nodup := by
    intro ops
    induction ops with
    | nil => exact fun _ h => h
    | cons e rest ih => exact fun urls h => ih _ (nodup_addSoleServer h e.2)
  exact hloop item.operations [] List.nodup_nil

/-! ## Paths that have been gone through -/

/-- No operation of the path declares a server. -/
def Cleared (item : Object) : Prop :=
  ∀ e ∈ item.operations, e.2.serverUrls = []

theorem Cleared.soleServers_eq (h : item.Cleared) : item.soleServers = [] := by
  refine List.eq_nil_iff_forall_not_mem.2 fun url hurl => ?_
  obtain ⟨e, he, hsole⟩ := mem_soleServers.1 hurl
  rw [h e he] at hsole
  cases hsole

/-- A path on whose server the operations agree is cleared. -/
theorem cleared_hoistOperations (h : item.Agrees) : item.hoistOperations.Cleared := by
  obtain ⟨url, -, -, hops⟩ | ⟨hagrees, -⟩ := hoistOperations_cases item
  · rintro ⟨v, op⟩ hop
    obtain ⟨hv, hop⟩ := mem_operations.1 hop
    rw [hops v hv] at hop
    obtain ⟨op', -, rfl⟩ := Option.map_eq_some_iff.1 hop
    exact serverUrls_withoutServers op'
  · exact absurd h hagrees

theorem hoistOperations_eq_self (h : ¬ item.Agrees) : item.hoistOperations = item := by
  obtain ⟨url, hsole, -, -⟩ | ⟨-, hsame⟩ := hoistOperations_cases item
  · exact absurd (congrArg List.length hsole) h
  · exact hsame

/-- After a pass, the operations of no path agree on a server. -/
theorem not_agrees_hoistOperations (item : Object) : ¬ item.hoistOperations.Agrees := by
  by_cases h : item.Agrees
  · intro hagrees
    unfold Agrees at hagrees
    rw [(cleared_hoistOperations h).soleServers_eq] at hagrees
    cases hagrees
  · rwa [hoistOperations_eq_self h]

/-- A list without repetitions whose members are all the same has one member. -/
theorem eq_singleton_of_nodup {urls : List Text} (h : urls.Nodup) (hurl : url ∈ urls)
    (honly : ∀ url' ∈ urls, url' = url) : urls = [url] := by
  by_contra hne
  rcases (h.ne_singleton_iff url).1 hne with rfl | ⟨url', hurl', hother⟩
  · cases hurl
  · exact hother (honly url' hurl')

/-- Paths that do not agree in themselves do not agree with each other either: a server that all of
    them declare alone would be the only one of each. -/
theorem soleServersOfPaths_ne_singleton {paths : Table Object}
    (h : ∀ e ∈ paths, ¬ e.2.Agrees) (url : Text) : soleServersOfPaths paths ≠ [url] := by
  intro hall
  have hmem : url ∈ soleServersOfPaths paths := by
    rw [hall]
    exact List.mem_singleton_self url
  obtain ⟨e, he, hurl⟩ := mem_soleServersOfPaths.1 hmem
  have honly : ∀ url' ∈ e.2.soleServers, url' = url := by
    intro url' hurl'
    have hmem' := mem_soleServersOfPaths.2 ⟨e, he, hurl'⟩
    rwa [hall, List.mem_singleton] at hmem'
  have hsole : e.2.soleServers = [url] :=
    eq_singleton_of_nodup (nodup_soleServers e.2) hurl honly
  exact h e he (congrArg List.length hsole)

/-! ## Documents that have been gone through -/

/-- The document has servers and a table of paths, and the operations of no path agree on a
    server. -/
structure Settled (doc : Object) : Prop where
  served : doc.serverUrls ≠ []
  paths : ∃ es, doc.given? .paths = some (.table es)
  agrees : ∀ e ∈ doc.table .paths, ¬ e.2.Agrees

theorem table_of_given? {m : Member} {es : Table Object} (h : doc.given? m = some (.table es)) :
    doc.table m = es := by
  unfold table get
  rw [h]
  rfl

theorem orServer_of_served (h : doc.serverUrls ≠ []) (otherwise : Text) :
    doc.orServer otherwise = doc := by
  unfold orServer
  rw [if_neg]
  rwa [List.isEmpty_iff]

theorem served_orServer (doc : Object) (otherwise : Text) :
    (doc.orServer otherwise).serverUrls ≠ [] := by
  by_cases h : doc.serverUrls = []
  · unfold orServer
    rw [if_pos (List.isEmpty_iff.2 h), serverUrls_withServer]
    exact List.cons_ne_nil otherwise []
  · rwa [orServer_of_served h]

theorem given?_paths_orServer (doc : Object) (otherwise : Text) :
    (doc.orServer otherwise).given? .paths = doc.given? .paths := by
  unfold orServer
  split
  · rw [withServer, given?_set, if_neg (by decide)]
  · rfl

/-- There is nothing to move up in a settled document. -/
theorem Settled.hoistServers_eq (h : doc.Settled) (otherwise : Text) :
    doc.hoistServers otherwise = doc := by
  obtain ⟨es, hes⟩ := h.paths
  have htable : doc.table .paths = es := table_of_given? hes
  have hsame : es.map (fun e => (e.1, e.2.hoistOperations)) = es := by
    have hid : ∀ e ∈ es, (e.1, e.2.hoistOperations) = e := by
      intro e he
      rw [hoistOperations_eq_self (h.agrees e (htable ▸ he))]
    exact (List.map_congr_left hid).trans (List.map_id es)
  unfold hoistServers
  dsimp only
  rw [htable, hsame, set_self hes]
  split
  · next url hurl =>
    -- no server is left that all paths could agree on
    exact absurd hurl (soleServersOfPaths_ne_singleton (fun e he => h.agrees e (htable ▸ he)) url)
  · exact orServer_of_served h.served otherwise

/-- One pass settles a document. -/
theorem settled_hoistServers (doc : Object) (otherwise : Text) :
    (doc.hoistServers otherwise).Settled := by
  have hagrees : ∀ e ∈ (doc.hoistServers otherwise).table .paths, ¬ e.2.Agrees := by
    intro e he
    obtain ⟨_, -, -, hpaths⟩ | hpaths := hoistServers_cases doc otherwise
    · -- clearing the servers of a path leaves its operations as they are
      rw [hpaths] at he
      obtain ⟨e', -, rfl⟩ := List.mem_map.1 he
      unfold Agrees
      rw [soleServers_withoutServers]
      exact not_agrees_hoistOperations e'.2
    · rw [hpaths] at he
      obtain ⟨e', -, rfl⟩ := List.mem_map.1 he
      exact not_agrees_hoistOperations e'.2
  refine ⟨?_, ?_, hagrees⟩
  · unfold hoistServers
    dsimp only
    split
    · split <;> exact served_orServer _ otherwise
    · exact served_orServer _ otherwise
  · unfold hoistServers
    dsimp only
    split
    · split
      · exact ⟨_, by rw [given?_paths_orServer, withServer, given?_set, if_neg (by decide),
          given?_set, if_pos rfl]⟩
      · exact ⟨_, by rw [given?_paths_orServer, given?_set, if_pos rfl]⟩
    · exact ⟨_, by rw [given?_paths_orServer, given?_set, if_pos rfl]⟩

/-! ## Documents whose operations agree -/

/-- Some operation of the document declares a server, every operation that does declares `url` and
    nothing else, and the document declares no other server itself. -/
structure Unanimous (doc : Object) (url : Text) : Prop where
  operations : ∀ e ∈ doc.table .paths, ∀ o ∈ e.2.operations,
    o.2.serverUrls = [] ∨ o.2.serverUrls = [url]
  declared : ∃ e ∈ doc.table .paths, ∃ o ∈ e.2.operations, o.2.serverUrls = [url]
  own : doc.serverUrls = [] ∨ doc.serverUrls = [url]

/-- Neither the path nor one of its operations declares a server. -/
def Bare (item : Object) : Prop :=
  item.serverUrls = [] ∧ item.Cleared

/-- Operations that declare `url` or nothing have no other server that one of them declares
    alone. -/
theorem eq_of_mem_soleServers {url' : Text}
    (h : ∀ o ∈ item.operations, o.2.serverUrls = [] ∨ o.2.serverUrls = [url])
    (hurl' : url' ∈ item.soleServers) : url' = url := by
  obtain ⟨o, ho, hsole⟩ := mem_soleServers.1 hurl'
  rcases h o ho with hnone | hsame
  · rw [hnone] at hsole
    cases hsole
  · rw [hsame] at hsole
    exact (List.singleton_inj.1 hsole).symm

theorem Unanimous.soleServersOfPaths_eq (h : doc.Unanimous url) :
    soleServersOfPaths (doc.table .paths) = [url] := by
  have hnodup : (soleServersOfPaths (doc.table .paths)).Nodup := by
    have hloop : ∀ (es : List (Text × Object)) (urls : List Text), urls.Nodup →
        (es.foldl (fun urls e => e.2.soleServers.foldl Text.insertNew urls) urls).Nodup := by
      intro es
      induction es with
      | nil => exact fun _ h => h
      | cons e rest ih => exact fun urls h => ih _ (Text.nodup_foldl_insertNew h _)
    exact hloop _ [] List.nodup_nil
  refine eq_singleton_of_nodup hnodup ?_ fun url' hurl' => ?_
  · obtain ⟨e, he, o, ho, hurl⟩ := h.declared
    exact mem_soleServersOfPaths.2 ⟨e, he, mem_soleServers.2 ⟨o, ho, hurl⟩⟩
  · obtain ⟨e, he, hsole⟩ := mem_soleServersOfPaths.1 hurl'
    exact eq_of_mem_soleServers (h.operations e he) hsole

/-- A path whose operations declare `url` or nothing is cleared by a pass. -/
theorem cleared_hoistOperations_of_forall
    (h : ∀ o ∈ item.operations, o.2.serverUrls = [] ∨ o.2.serverUrls = [url]) :
    item.hoistOperations.Cleared := by
  by_cases hagrees : item.Agrees
  · exact cleared_hoistOperations hagrees
  · rw [hoistOperations_eq_self hagrees]
    intro o ho
    rcases h o ho with hnone | hsame
    · exact hnone
    · -- one operation that declares the server alone makes all of them agree on it
      have hsole : item.soleServers = [url] :=
        eq_singleton_of_nodup (nodup_soleServers item) (mem_soleServers.2 ⟨o, ho, hsame⟩)
          fun _ hurl' => eq_of_mem_soleServers h hurl'
      exact absurd (congrArg List.length hsole) hagrees

/-- The document takes the server over from all operations and paths. -/
theorem Unanimous.hoistServers_eq (h : doc.Unanimous url) (otherwise : Text) :
    (doc.hoistServers otherwise).serverUrls = [url] ∧
      ∀ e ∈ (doc.hoistServers otherwise).table .paths, e.2.Bare := by
  have hown : doc.serverUrls.isEmpty || doc.serverUrls == [url] := by
    rcases h.own with hnone | hsame
    · simp [hnone]
    · simp [hsame]
  unfold hoistServers
  dsimp only
  rw [h.soleServersOfPaths_eq]
  dsimp only
  rw [if_pos hown, orServer_of_serverUrls (serverUrls_withServer _ url)]
  refine ⟨serverUrls_withServer _ url, ?_⟩
  rw [withServer, table_set_of_ne (by decide), table_set_self, table_set_self]
  -- The servers of the operations go before those of the paths.
  intro e he
  simp only [List.mem_map, exists_exists_and_eq_and] at he
  obtain ⟨e', he', rfl⟩ := he
  refine ⟨serverUrls_withoutServers _, ?_⟩
  unfold Cleared
  rw [operations_withoutServers]
  exact cleared_hoistOperations_of_forall (h.operations e' he')

/-- Moving servers up leaves a document with a server, and a second pass changes nothing.  Where the
    operations agree on a server, the document has it afterwards, and no path and no operation has
    one, whatever servers the paths had before. -/
theorem hoistServers_settles (doc : Object) (otherwise : Text) :
    (doc.hoistServers otherwise).serverUrls ≠ [] ∧
      (∀ later, (doc.hoistServers otherwise).hoistServers later = doc.hoistServers otherwise) ∧
      ∀ url, doc.Unanimous url → (doc.hoistServers otherwise).serverUrls = [url] ∧
        ∀ e ∈ (doc.hoistServers otherwise).table .paths, e.2.Bare := by
  have hsettled := settled_hoistServers doc otherwise
  exact ⟨hsettled.served, hsettled.hoistServers_eq, fun url h => h.hoistServers_eq otherwise⟩

/-- A document with three operations on two paths: one of each path declares the same server. -/
def fleetDocument : Object :=
  let served := build .operation [(.servers, .objects [serverAt "http://a"])]
  let silent := build .operation []
  build .document [(.paths, .table [
    ("/ships", build .pathItem [(.get, .object served), (.post, .object silent)]),
    ("/ports", build .pathItem [(.get, .object served)])])]

/-- The document takes the server of its operations over. -/
theorem settled_fleetDocument : fleetDocument.Unanimous "http://a" ∧
    (fleetDocument.hoistServers "http://x").serverUrls = [("http://a" : Text)] ∧
      ∀ e ∈ (fleetDocument.hoistServers "http://x").table .paths, e.2.Bare := by
  have hunanimous : fleetDocument.Unanimous "http://a" := by
    constructor <;> decide
  exact ⟨hunanimous, (hoistServers_settles fleetDocument "http://x").2.2 _ hunanimous⟩

end IdlBridge.OpenApi.Object
