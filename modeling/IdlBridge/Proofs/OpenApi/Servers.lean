import IdlBridge.OpenApi.Servers
import IdlBridge.Proofs.OpenApi.Operations
import IdlBridge.Proofs.Table
import IdlBridge.Proofs.Text

/-! # Where operations are served

    An operation is served at its own servers, else at those of its path, else at those of the
    document.  Moving servers up clears a path once the operations with a single server agree on
    one (`hoistOperations`), and a document once all such operations do (`hoistServers`).  What is
    cleared are *all* operations of the path, though, so what an operation with several servers
    has declared is lost there, and nowhere else: this is the only way in which an operation with
    servers of its own is served elsewhere afterwards.
-/

namespace IdlBridge.OpenApi.Object

/-- The servers of an operation of a path: its own, else those of the path, else those of the
    document. -/
def effectiveServers (doc item op : Object) : List Text :=
  if op.serverUrls ≠ [] then op.serverUrls
  else if item.serverUrls ≠ [] then item.serverUrls
  else doc.serverUrls

/-- The path item and the operation at a place, if there is an operation. -/
def operationAt? (doc : Object) (p : Place) : Option (Object × Object) :=
  ((doc.table .paths).get? p.1).bind fun item => (item.object? p.2).map fun op => (item, op)

/-- Where the operation at a place is served, if there is an operation. -/
def servedAt? (doc : Object) (p : Place) : Option (List Text) :=
  (doc.operationAt? p).map fun e => doc.effectiveServers e.1 e.2

theorem operationAt?_eq_some {doc item op : Object} {p : Place} :
    doc.operationAt? p = some (item, op) ↔
      (doc.table .paths).get? p.1 = some item ∧ item.object? p.2 = some op := by
  unfold operationAt?
  constructor
  · intro h
    obtain ⟨item', hitem, h⟩ := Option.bind_eq_some_iff.1 h
    obtain ⟨op', hop, heq⟩ := Option.map_eq_some_iff.1 h
    cases heq
    exact ⟨hitem, hop⟩
  · rintro ⟨hitem, hop⟩
    rw [hitem, Option.bind_some, hop]
    rfl

theorem ne_servers_of_mem_verbs {v : Member} (hv : v ∈ verbs) : Member.servers ≠ v := by
  intro h
  rw [← h] at hv
  exact absurd hv (by decide)

/-! ## Reading servers -/

theorem serverUrls_set_self (o : Object) (os : List Object) :
    (o.set .servers (.objects os)).serverUrls = os.map (·.text .url) := by
  simp [serverUrls, objects]

theorem serverUrls_withServer (o : Object) (url : Text) : (o.withServer url).serverUrls = [url] :=
  serverUrls_set_self o [serverAt url]

theorem serverUrls_withoutServers (o : Object) : o.withoutServers.serverUrls = [] :=
  serverUrls_set_self o []

theorem object?_set_of_ne {m m' : Member} (h : m ≠ m') (o : Object) (c : Slot) :
    (o.set m c).object? m' = o.object? m' := by
  simp [object?, h]

theorem serverUrls_mapOperations (f : Object → Object) (item : Object) :
    (item.mapOperations f).serverUrls = item.serverUrls := by
  have hservers : Member.servers ∉ verbs := by decide
  unfold serverUrls objects
  rw [get_mapOperations, if_neg hservers]

/-! ## Servers that are declared alone -/

/-- The servers with that of one more operation, if it declares a single one. -/
def addSoleServer (urls : List Text) (op : Object) : List Text :=
  match op.serverUrls with
  | [url] => Text.insertNew urls url
  | _ => urls

theorem mem_addSoleServer {urls : List Text} {op : Object} {url : Text} :
    url ∈ addSoleServer urls op ↔ url ∈ urls ∨ op.serverUrls = [url] := by
  unfold addSoleServer
  split
  · next url' h =>
    rw [Text.mem_insertNew, h, List.singleton_inj]
    exact or_congr_right eq_comm
  · next hnone =>
    constructor
    · exact Or.inl
    · intro h
      exact h.resolve_right fun hurl => hnone url hurl

theorem mem_soleServers {item : Object} {url : Text} :
    url ∈ item.soleServers ↔ ∃ e ∈ item.operations, e.2.serverUrls = [url] := by
  have hloop : ∀ (ops : List (Member × Object)) (urls : List Text),
      url ∈ ops.foldl (fun urls e => addSoleServer urls e.2) urls ↔
        url ∈ urls ∨ ∃ e ∈ ops, e.2.serverUrls = [url] := by
    intro ops
    induction ops with
    | nil => simp
    | cons e rest ih =>
      intro urls
      rw [List.foldl_cons, ih, mem_addSoleServer, or_assoc]
      simp only [List.mem_cons, exists_eq_or_imp]
  have hall : url ∈ item.soleServers ↔ url ∈ ([] : List Text) ∨ _ := hloop item.operations []
  rw [hall, or_iff_right List.not_mem_nil]

theorem mem_soleServersOfPaths {paths : Table Object} {url : Text} :
    url ∈ soleServersOfPaths paths ↔ ∃ e ∈ paths, url ∈ e.2.soleServers := by
  have hloop : ∀ (es : List (Text × Object)) (urls : List Text),
      url ∈ es.foldl (fun urls e => e.2.soleServers.foldl Text.insertNew urls) urls ↔
        url ∈ urls ∨ ∃ e ∈ es, url ∈ e.2.soleServers := by
    intro es
    induction es with
    | nil => simp
    | cons e rest ih =>
      intro urls
      rw [List.foldl_cons, ih, Text.mem_foldl_insertNew, or_assoc]
      simp only [List.mem_cons, exists_eq_or_imp]
  have hall : url ∈ soleServersOfPaths paths ↔ url ∈ ([] : List Text) ∨ _ := hloop paths []
  rw [hall, or_iff_right List.not_mem_nil]

/-- An operation that declares one server declares it alone. -/
theorem mem_soleServers_of_operation {item op : Object} {v : Member} {url : Text} (hv : v ∈ verbs)
    (hop : item.object? v = some op) (hurl : op.serverUrls = [url]) : url ∈ item.soleServers := by
  refine mem_soleServers.2 ⟨(v, op), List.mem_filterMap.2 ⟨v, hv, ?_⟩, hurl⟩
  rw [hop]
  rfl

/-! ## What moving servers up does -/

/-- The operations of the path that declare a single server agree on it. -/
def Agrees (item : Object) : Prop :=
  item.soleServers.length = 1

instance (item : Object) : Decidable item.Agrees := inferInstanceAs (Decidable (_ = 1))

/-- A path on whose server the operations agree takes it over from all of them; another path stays
    as it is. -/
theorem hoistOperations_cases (item : Object) :
    (∃ url, item.soleServers = [url] ∧ item.hoistOperations.serverUrls = [url] ∧
      ∀ v ∈ verbs, item.hoistOperations.object? v = (item.object? v).map withoutServers) ∨
    (¬ item.Agrees ∧ item.hoistOperations = item) := by
  unfold hoistOperations Agrees
  split
  · next url hurl =>
    left
    refine ⟨url, hurl, ?_, fun v hv => ?_⟩
    · rw [serverUrls_mapOperations, serverUrls_withServer]
    · rw [object?_mapOperations hv, withServer, object?_set_of_ne (ne_servers_of_mem_verbs hv)]
  · next hnone =>
    right
    refine ⟨fun hlength => ?_, rfl⟩
    obtain ⟨url, hurl⟩ := List.length_eq_one_iff.1 hlength
    exact hnone url hurl

theorem orServer_of_serverUrls {doc : Object} {url : Text} (h : doc.serverUrls = [url])
    (otherwise : Text) : doc.orServer otherwise = doc := by
  unfold orServer
  rw [h]
  rfl

theorem table_orServer (doc : Object) (otherwise : Text) :
    (doc.orServer otherwise).table .paths = doc.table .paths := by
  unfold orServer
  split
  · exact table_set_of_ne (by decide) doc _
  · rfl

/-- Every path of a document is cleared by its operations; if all operations with a single server
    agree on it, the document may take it over from all paths. -/
theorem hoistServers_cases (doc : Object) (otherwise : Text) :
    (∃ url, soleServersOfPaths (doc.table .paths) = [url] ∧
      (doc.hoistServers otherwise).serverUrls = [url] ∧
      (doc.hoistServers otherwise).table .paths =
        (doc.table .paths).map fun e => (e.1, e.2.hoistOperations.withoutServers)) ∨
    (doc.hoistServers otherwise).table .paths =
      (doc.table .paths).map fun e => (e.1, e.2.hoistOperations) := by
  unfold hoistServers
  dsimp only
  split
  · next url hurl =>
    split
    · left
      rw [orServer_of_serverUrls (serverUrls_withServer _ url)]
      refine ⟨url, hurl, serverUrls_withServer _ url, ?_⟩
      rw [withServer, table_set_of_ne (by decide), table_set_self, table_set_self, List.map_map]
      rfl
    · -- Other servers of the document stand in the way.
      right
      rw [table_orServer, table_set_self]
  · right
    rw [table_orServer, table_set_self]

/-! ## Operations after servers have been moved up -/

variable {doc item op : Object} {p : Place}

theorem operationAt?_mapPaths {doc' op' : Object} {f : Object → Object}
    (hpaths : doc'.table .paths = (doc.table .paths).map fun e => (e.1, f e.2))
    (hp : doc.operationAt? p = some (item, op)) (hop : (f item).object? p.2 = some op') :
    doc'.operationAt? p = some (f item, op') := by
  refine operationAt?_eq_some.2 ⟨?_, hop⟩
  rw [hpaths, Table.get?_mapValues, (operationAt?_eq_some.1 hp).1]
  rfl

theorem servedAt?_of_own (hp : doc.operationAt? p = some (item, op)) (hown : op.serverUrls ≠ []) :
    doc.servedAt? p = some op.serverUrls := by
  unfold servedAt? effectiveServers
  rw [hp, Option.map_some, if_pos hown]

/-- Wherever the server of a path ends up, its operations are served there. -/
theorem servedAt?_hoistServers_of_agrees {url : Text} (otherwise : Text) (hv : p.2 ∈ verbs)
    (hp : doc.operationAt? p = some (item, op)) (hsole : item.soleServers = [url]) :
    (doc.hoistServers otherwise).servedAt? p = some [url] := by
  obtain ⟨hitem, hop⟩ := operationAt?_eq_some.1 hp
  obtain ⟨url', hsole', hurl, hops⟩ | ⟨hagrees, -⟩ := hoistOperations_cases item
  · rw [hsole, List.singleton_inj] at hsole'
    subst hsole'
    -- The operation has no servers of its own any more.
    have hbare : item.hoistOperations.object? p.2 = some op.withoutServers := by
      rw [hops p.2 hv, hop]
      rfl
    obtain ⟨all, hall, hdoc, hpaths⟩ | hpaths := hoistServers_cases doc otherwise
    · -- What the document takes over is what the operations of every path agree on.
      have hmem : url ∈ soleServersOfPaths (doc.table .paths) := by
        refine mem_soleServersOfPaths.2 ⟨(p.1, item), Table.mem_of_get? hitem, ?_⟩
        rw [hsole]
        exact List.mem_singleton_self url
      rw [hall, List.mem_singleton] at hmem
      have hat := operationAt?_mapPaths (f := fun o => o.hoistOperations.withoutServers) hpaths hp
        ((object?_set_of_ne (ne_servers_of_mem_verbs hv) _ _).trans hbare)
      unfold servedAt? effectiveServers
      rw [hat, Option.map_some, serverUrls_withoutServers, serverUrls_withoutServers, hdoc, hmem]
      rfl
    · have hat := operationAt?_mapPaths hpaths hp hbare
      unfold servedAt? effectiveServers
      rw [hat, Option.map_some, serverUrls_withoutServers, hurl]
      rfl
  · exact absurd (congrArg List.length hsole) hagrees

/-- The operations of a path that do not agree keep their servers. -/
theorem servedAt?_hoistServers_of_not_agrees (otherwise : Text) (hv : p.2 ∈ verbs)
    (hp : doc.operationAt? p = some (item, op)) (hown : op.serverUrls ≠ [])
    (hagrees : ¬ item.Agrees) :
    (doc.hoistServers otherwise).servedAt? p = some op.serverUrls := by
  obtain ⟨url, hsole, -, -⟩ | ⟨-, hsame⟩ := hoistOperations_cases item
  · exact absurd (congrArg List.length hsole) hagrees
  · have hop : item.hoistOperations.object? p.2 = some op := by
      rw [hsame]
      exact (operationAt?_eq_some.1 hp).2
    obtain ⟨_, -, -, hpaths⟩ | hpaths := hoistServers_cases doc otherwise
    · have hat := operationAt?_mapPaths (f := fun o => o.hoistOperations.withoutServers) hpaths hp
        ((object?_set_of_ne (ne_servers_of_mem_verbs hv) _ _).trans hop)
      exact servedAt?_of_own hat hown
    · exact servedAt?_of_own (operationAt?_mapPaths hpaths hp hop) hown

/-- An operation with servers of its own is served where it was before servers are moved up, unless
    it has several of them and the operations of its path with a single server agree on it. -/
theorem servedAt?_hoistServers_iff (otherwise : Text) (hv : p.2 ∈ verbs)
    (hp : doc.operationAt? p = some (item, op)) (hown : op.serverUrls ≠ []) :
    (doc.hoistServers otherwise).servedAt? p = doc.servedAt? p ↔
      op.serverUrls.length = 1 ∨ ¬ item.Agrees := by
  rw [servedAt?_of_own hp hown]
  by_cases hagrees : item.Agrees
  · obtain ⟨url, hsole⟩ := List.length_eq_one_iff.1 hagrees
    rw [servedAt?_hoistServers_of_agrees otherwise hv hp hsole, Option.some.injEq,
      or_iff_left (not_not_intro hagrees)]
    constructor
    · intro h
      rw [← h]
      rfl
    · intro hlength
      obtain ⟨url', hurl'⟩ := List.length_eq_one_iff.1 hlength
      -- The single server of an operation is among those that agree, so it is the one.
      have hmem := mem_soleServers_of_operation hv (operationAt?_eq_some.1 hp).2 hurl'
      rw [hsole, List.mem_singleton] at hmem
      rw [hurl', hmem]
  · rw [servedAt?_hoistServers_of_not_agrees otherwise hv hp hown hagrees]
    exact iff_of_true rfl (Or.inr hagrees)

/-- A document with two operations on one path: the first has one server, the second has two. -/
def forkDocument : Object :=
  let reading := build .operation [(.servers, .objects [serverAt "http://a"])]
  let writing := build .operation [(.servers, .objects [serverAt "http://b", serverAt "http://c"])]
  build .document [(.paths, .table [("/orders",
    build .pathItem [(.get, .object reading), (.post, .object writing)])])]

/-- The first operation of the document has a single server and stays there. -/
theorem served_forkDocument : ∃ item op : Object,
    Member.get ∈ verbs ∧ forkDocument.operationAt? ("/orders", .get) = some (item, op) ∧
      op.serverUrls ≠ [] ∧
      (forkDocument.hoistServers "http://x").servedAt? ("/orders", .get) =
        forkDocument.servedAt? ("/orders", .get) := by
  refine ⟨_, _, by decide, rfl, by decide, ?_⟩
  exact (servedAt?_hoistServers_iff "http://x" (by decide) rfl (by decide)).2 (Or.inl (by decide))

/-- The second operation of the document has two servers, and afterwards it is served at the server
    of the first one instead. -/
theorem diverted_forkDocument : ∃ item op : Object,
    Member.post ∈ verbs ∧ forkDocument.operationAt? ("/orders", .post) = some (item, op) ∧
      op.serverUrls = [("http://b" : Text), "http://c"] ∧
      forkDocument.servedAt? ("/orders", .post) = some op.serverUrls ∧
      (forkDocument.hoistServers "http://x").servedAt? ("/orders", .post) =
        some [("http://a" : Text)] :=
  ⟨_, _, by decide, rfl, by decide, by decide, by decide⟩

end IdlBridge.OpenApi.Object
