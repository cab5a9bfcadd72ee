import ClassDocs.Config.Basic
import ClassDocs.Proofs.Tables
import ClassDocs.Proofs.Trimming

/-!
# Which source a setting comes from

Five sources settle a configuration, and they do not all work alike: a layer replaces what it sets,
addresses of third parties are put over each other one by one, and the mappings of the project come
between two layers and fill only what is still open. `load_settles` says what this comes to: each
setting is that of the first layer that has it, from the command line down, and the mappings count
after all layers although they are used before the last one.

`Settles` is what is known of a configuration while it is put together, with the layers that are in
it by then. Putting one more layer over it and using the mappings each keep it.
-/

namespace ClassDocs

/-! ## Prefixes of mappings -/

namespace Mapping

open Text

theorem head?_normalPrefix (written : String) :
    (normalPrefix written).toList.head? ≠ some '\\' := by
  intro h
  have hdrop : (written.toList.dropWhile (· == '\\')).head? = some '\\' := by
    rw [normalPrefix, String.toList_ofList] at h
    split at h
    · exact h
    · rename_i hopen
      cases hname : written.toList.dropWhile (· == '\\') with
      | nil => simp [hname] at hopen
      | cons c rest => simpa [hname] using h
  simpa using not_of_head?_dropWhile hdrop

theorem exists_of_mem_ofSection {manifest : JsonValue} {section_ : String}
    {isDev : Bool} {m : Mapping} (h : m ∈ ofSection manifest section_ isDev) :
    ∃ written base, m = ⟨normalPrefix written, normalBase base, isDev⟩ := by
  obtain ⟨⟨written, bases⟩, -, hm⟩ := List.mem_flatMap.mp h
  obtain ⟨base, -, rfl⟩ := List.mem_map.mp hm
  exact ⟨written, base, rfl⟩

/-- The mappings of a project are those of its manifest, if it has one. -/
theorem ofProject_cases (disk : Disk) (root : String) :
    ofProject disk root = [] ∨ ∃ manifest, ofProject disk root = ofManifest manifest := by
  unfold ofProject
  split
  · rename_i text _
    cases JsonValue.parse? text with
    | none => exact .inl rfl
    | some manifest => exact .inr ⟨manifest, rfl⟩
  · exact .inl rfl

/-- A mapping read from a manifest is in normal form. -/
theorem exists_of_mem_ofProject {disk : Disk} {root : String} {m : Mapping}
    (h : m ∈ ofProject disk root) :
    ∃ written base isDev, m = ⟨normalPrefix written, normalBase base, isDev⟩ := by
  rcases ofProject_cases disk root with hnone | ⟨manifest, hmanifest⟩
  · simp [hnone] at h
  · rw [hmanifest, ofManifest, List.mem_mergeSort, List.mem_append] at h
    rcases h with h | h
    · obtain ⟨written, base, hm⟩ := exists_of_mem_ofSection h
      exact ⟨written, base, false, hm⟩
    · obtain ⟨written, base, hm⟩ := exists_of_mem_ofSection h
      exact ⟨written, base, true, hm⟩

theorem head?_spacePrefix {disk : Disk} {root : String} {m : Mapping}
    (h : m ∈ ofProject disk root) :
    m.spacePrefix.toList.head? ≠ some '\\' := by
  obtain ⟨written, base, isDev, rfl⟩ := exists_of_mem_ofProject h
  exact head?_normalPrefix written

/-- The mappings of a project come with the longest prefix first. -/
theorem pairwise_ofProject (disk : Disk) (root : String) :
    (ofProject disk root).Pairwise fun a b => byteLength b.spacePrefix ≤
      byteLength a.spacePrefix := by
  rcases ofProject_cases disk root with hnone | ⟨manifest, hmanifest⟩
  · simp [hnone]
  · rw [hmanifest, ofManifest]
    refine (List.pairwise_mergeSort (fun a b c hab hbc => ?_) (fun a b => ?_) _).imp fun h =>
      of_decide_eq_true h
    · exact decide_eq_true (Nat.le_trans (of_decide_eq_true hbc) (of_decide_eq_true hab))
    · simpa using Nat.le_total (byteLength b.spacePrefix) (byteLength a.spacePrefix)

/-- The mapping of a project's own code: it has a namespace, it is for development only if all that
have one are, and no other of its like has a longer prefix. -/
structure IsPrimary (mappings : List Mapping) (m : Mapping) : Prop where
  mem : m ∈ mappings
  named : m.spacePrefix ≠ ""
  own : m.isDev = true → ∀ m' ∈ mappings, m'.spacePrefix ≠ "" → m'.isDev = true
  longest : ∀ m' ∈ mappings, m'.spacePrefix ≠ "" → m'.isDev = m.isDev →
    byteLength m'.spacePrefix ≤ byteLength m.spacePrefix

/-- In a list in order, what is found first comes before everything else that could be found. -/
theorem eq_or_rel_of_find? {α : Type} {R : α → α → Prop} {l : List α} (hl : l.Pairwise R)
    {q : α → Bool} {a b : α} (ha : l.find? q = some a) (hb : b ∈ l) (hq : q b = true) :
    a = b ∨ R a b := by
  obtain ⟨-, before, after, rfl, hbefore⟩ := List.find?_eq_some_iff_append.mp ha
  rcases List.mem_append.mp hb with hb | hb
  · simpa [hq] using hbefore b hb
  · rcases List.mem_cons.mp hb with rfl | hb
    · exact .inl rfl
    · exact .inr (List.rel_of_pairwise_cons (List.pairwise_append.mp hl).2.1 hb)

theorem isPrimary_of_primary? {disk : Disk} {root : String} {m : Mapping}
    (h : primary? (ofProject disk root) = some m) : IsPrimary (ofProject disk root) m := by
  have hmem : ∀ {m'}, m' ∈ (ofProject disk root).filter (!·.spacePrefix.isEmpty) ↔
      m' ∈ ofProject disk root ∧ m'.spacePrefix ≠ "" := by
    simp [List.mem_filter]
  have hsorted :=
    (pairwise_ofProject disk root).sublist (List.filter_sublist (p := (!·.spacePrefix.isEmpty)))
  have hle : ∀ {a b : Mapping}, a = b ∨ byteLength b.spacePrefix ≤ byteLength a.spacePrefix →
      byteLength b.spacePrefix ≤ byteLength a.spacePrefix := by
    rintro a b (rfl | h)
    · exact Nat.le_refl _
    · exact h
  rw [primary?, Option.or_eq_some_iff] at h
  rcases h with hown | ⟨hnone, hfirst⟩
  · -- the first that is not for development only; the list is in order, so that it has the longest
    -- prefix of these
    obtain ⟨hm, hnamed⟩ := hmem.mp (List.mem_of_find?_eq_some hown)
    have hdev : m.isDev = false := by simpa using List.find?_some hown
    refine ⟨hm, hnamed, fun h => absurd h (by simp [hdev]), fun m' hm' hnamed' hlike => ?_⟩
    exact hle (eq_or_rel_of_find? hsorted hown (hmem.mpr ⟨hm', hnamed'⟩) (by simp [hlike, hdev]))
  · -- all are for development only, and the first of them has the longest prefix
    rw [List.find?_eq_none] at hnone
    obtain ⟨hm, hnamed⟩ := hmem.mp (List.mem_of_head? hfirst)
    have hdev : ∀ m' ∈ ofProject disk root, m'.spacePrefix ≠ "" → m'.isDev = true :=
      fun m' hm' hnamed' => by
      simpa using hnone m' (hmem.mpr ⟨hm', hnamed'⟩)
    refine ⟨hm, hnamed, fun _ => hdev, fun m' hm' hnamed' _ => ?_⟩
    obtain ⟨rest, hrest⟩ := List.head?_eq_some_iff.mp hfirst
    have hm'rest : m' ∈ m :: rest := hrest ▸ hmem.mpr ⟨hm', hnamed'⟩
    rw [hrest] at hsorted
    exact hle ((List.mem_cons.mp hm'rest).imp Eq.symm (List.rel_of_pairwise_cons hsorted))

end Mapping

/-! ## Layers from files -/

namespace Layer

theorem thirdParty_set {layer l : Layer} {name : String} {value : Toml.Value}
    (h : layer.set name value = some l) :
    l.thirdParty = layer.thirdParty := by
  unfold set at h
  split at h
  case h_8 => cases h
  all_goals
    obtain ⟨v, -, rfl⟩ := Option.map_eq_some_iff.mp h
    rfl

theorem nodup_addParty {layer l : Layer} {name : String} {value : Toml.Value}
    (hn : layer.thirdParty.keys.Nodup) (h : layer.addParty name value = some l) :
    l.thirdParty.keys.Nodup := by
  unfold addParty at h
  split at h
  · cases h
  · obtain ⟨url, -, rfl⟩ := Option.map_eq_some_iff.mp h
    exact Table.nodup_insert hn name url

theorem nodup_addParties {entries : List (List String × Toml.Value)} {layer l : Layer}
    (hn : layer.thirdParty.keys.Nodup) (h : layer.addParties entries = some l) :
    l.thirdParty.keys.Nodup := by
  fun_induction addParties layer entries with
  | case1 layer =>
    obtain rfl := Option.some.inj h
    exact hn
  | case2 layer name value rest ih =>
    obtain ⟨l', hl', h⟩ := Option.bind_eq_some_iff.mp h
    exact ih l' (nodup_addParty hn hl') h
  | case3 => cases h

theorem nodup_addLine {r r' : Reading} {line : Toml.Line} (hn : r.layer.thirdParty.keys.Nodup)
    (h : r.addLine line = some r') : r'.layer.thirdParty.keys.Nodup := by
  revert h
  fun_cases Reading.addLine r line <;> intro h
  case case1 =>
    obtain rfl := Option.some.inj h
    exact hn
  case case4 | case9 =>
    obtain ⟨l, hl, rfl⟩ := Option.map_eq_some_iff.mp h
    exact nodup_addParty hn hl
  case case5 =>
    obtain ⟨l, hl, rfl⟩ := Option.map_eq_some_iff.mp h
    exact nodup_addParties hn hl
  case case7 =>
    obtain ⟨l, hl, rfl⟩ := Option.map_eq_some_iff.mp h
    exact thirdParty_set hl ▸ hn
  all_goals cases h

/-- A configuration file names each third party once. -/
theorem nodup_parse? {document : String} {layer : Layer} (h : parse? document = some layer) :
    layer.thirdParty.keys.Nodup := by
  have hfold : ∀ (lines : List Toml.Line) (r r' : Reading), r.layer.thirdParty.keys.Nodup →
      lines.foldlM Reading.addLine r = some r' → r'.layer.thirdParty.keys.Nodup := by
    intro lines
    induction lines with
    | nil =>
      intro r r' hn h
      obtain rfl := Option.some.inj h
      exact hn
    | cons line lines ih =>
      intro r r' hn h
      rw [List.foldlM_cons] at h
      obtain ⟨r₁, hr₁, h⟩ := Option.bind_eq_some_iff.mp h
      exact ih r₁ r' (nodup_addLine hn hr₁) h
  obtain ⟨lines, -, h⟩ := Option.bind_eq_some_iff.mp h
  obtain ⟨r, hr, h⟩ := Option.bind_eq_some_iff.mp h
  obtain rfl := Option.some.inj h
  exact hfold lines {} r List.nodup_nil hr

end Layer

/-! ## Putting layers over each other -/

namespace Config

open Text

/-- The settings of a configuration are those of the first layer that has them; a root namespace
and root path that no layer has are those of the primary mapping, and all else is as built in. -/
structure Settles (layers : List Layer) (primary : Option Mapping) (c : Config) : Prop where
  rootSpace : c.rootSpace =
    ((layers.findSome? (·.rootSpace)).map Name.bare).or (primary.map (·.space))
  rootPath : c.rootPath = (layers.findSome? (·.rootPath)).or (primary.map (·.base))
  baseUrl : c.baseUrl = (layers.findSome? (·.baseUrl)).getD ""
  outputDir : c.outputDir = (layers.findSome? (·.outputDir)).getD "docs/api"
  exclude : c.exclude = (layers.findSome? (·.exclude)).getD []
  thirdParty : ∀ space,
    c.thirdParty.find? space =
      (layers.findSome? (·.thirdParty.find? space)).or (knownParties.lookup space)
  timeoutSecs : c.timeoutSecs = (layers.findSome? (·.timeoutSecs)).getD 10
  workers : c.workers = layers.findSome? (·.workers)

/-- A configuration with which a run can start. -/
structure Usable (c : Config) : Prop where
  rootSpace : ∃ space, c.rootSpace = some space ∧ space ≠ ""
  timeoutSecs : c.timeoutSecs ≠ 0
  workers : c.workers ≠ some 0

theorem settles_default (root : String) : Settles [] none { projectRoot := root } where
  rootSpace := rfl
  rootPath := rfl
  baseUrl := rfl
  outputDir := rfl
  exclude := rfl
  thirdParty space := by
    have hknown : (⟨knownParties⟩ : Table String).keys.Nodup := by decide
    exact (Table.find?_union hknown {} space).trans (Option.or_none)
  timeoutSecs := rfl
  workers := rfl

theorem Settles.apply {layers : List Layer} {primary : Option Mapping} {c : Config}
    (h : Settles layers primary c) {layer : Layer} (hn : layer.thirdParty.keys.Nodup) :
    Settles (layer :: layers) primary (c.apply layer) where
  rootSpace := by
    rw [Config.apply, h.rootSpace, List.findSome?_cons]
    cases layer.rootSpace <;> rfl
  rootPath := by
    rw [Config.apply, h.rootPath, List.findSome?_cons]
    cases layer.rootPath <;> rfl
  baseUrl := by
    rw [Config.apply, h.baseUrl, List.findSome?_cons]
    cases layer.baseUrl <;> rfl
  outputDir := by
    rw [Config.apply, h.outputDir, List.findSome?_cons]
    cases layer.outputDir <;> rfl
  exclude := by
    rw [Config.apply, h.exclude, List.findSome?_cons]
    cases layer.exclude <;> rfl
  thirdParty space := by
    rw [Config.apply, Table.find?_union hn, h.thirdParty, List.findSome?_cons]
    cases layer.thirdParty.find? space <;> rfl
  timeoutSecs := by
    rw [Config.apply, h.timeoutSecs, List.findSome?_cons]
    cases layer.timeoutSecs <;> rfl
  workers := by
    rw [Config.apply, h.workers, List.findSome?_cons]
    cases layer.workers <;> rfl

theorem Settles.useMappings {layers : List Layer} {c : Config} (h : Settles layers none c)
    (mappings : List Mapping) :
    Settles layers (Mapping.primary? mappings) (c.useMappings mappings) where
  rootSpace := by
    rw [Config.useMappings, h.rootSpace, Option.map_none, Option.or_none]
  rootPath := by
    rw [Config.useMappings, h.rootPath, Option.map_none, Option.or_none]
  baseUrl := h.baseUrl
  outputDir := h.outputDir
  exclude := h.exclude
  thirdParty := h.thirdParty
  timeoutSecs := h.timeoutSecs
  workers := h.workers

theorem problem?_eq_none_iff (c : Config) : c.problem? = none ↔ c.Usable := by
  unfold problem?
  constructor
  · intro h
    split at h
    · cases h
    rename_i hspace
    split at h
    · cases h
    rename_i htimeout
    split at h
    · cases h
    rename_i hworkers
    refine ⟨?_, by simpa using htimeout, by simpa using hworkers⟩
    cases hs : c.rootSpace with
    | none => simp [hs] at hspace
    | some space => exact ⟨space, rfl, by simpa [hs] using hspace⟩
  · rintro ⟨⟨space, hs, hspace⟩, htimeout, hworkers⟩
    rw [if_neg (by simpa [hs] using hspace), if_neg (by simpa using htimeout),
      if_neg (by simpa using hworkers)]

/-! ## The whole configuration -/

/-- What a configuration file says: nothing where there is no such file, and else the layer that is
written in it. -/
inductive FileSays (disk : Disk) : Option String → Option Layer → Prop
  | noPlace : FileSays disk none none
  | absent {path : String} : disk.read path = .error .missing → FileSays disk (some path) none
  | holds {path document : String} {layer : Layer} : disk.read path = .ok document →
      Layer.parse? document = some layer → FileSays disk (some path) (some layer)

theorem FileSays.nodup {disk : Disk} {place : Option String} {layer : Layer}
    (h : FileSays disk place (some layer)) :
    layer.thirdParty.keys.Nodup := by
  cases h with
  | holds _ hparse => exact Layer.nodup_parse? hparse

theorem readLayer_of_said {disk : Disk} {path : String} {said : Option Layer}
    (h : FileSays disk (some path) said) :
    readLayer disk path = .ok (said.getD {}) := by
  unfold readLayer
  cases h with
  | absent hread => rw [hread]; rfl
  | holds hread hparse =>
    rw [hread]
    dsimp only
    rw [hparse]
    rfl

/-- Where every file can be read, a configuration is put together from what the files say. -/
theorem load_eq_ofLayers {disk : Disk} {userFile : Option String} {root : String}
    {user project : Option Layer} (huser : FileSays disk userFile user)
    (hproject : FileSays disk (some (projectFile root)) project)
    (commandLine : Layer) : load disk userFile root commandLine =
      ofLayers root (user.getD {}) (project.getD {}) (Mapping.ofProject disk root)
        commandLine := by
  unfold load
  cases userFile with
  | none =>
    cases huser
    rw [readLayer_of_said hproject]
    rfl
  | some path =>
    dsimp only
    rw [readLayer_of_said huser, readLayer_of_said hproject]
    rfl

/-- A file that says nothing leaves a configuration settled by the layers so far. -/
theorem Settles.apply_said {disk : Disk} {place : Option String} {said : Option Layer}
    (h : FileSays disk place said) {layers : List Layer} {primary : Option Mapping} {c : Config}
    (hc : Settles layers primary c) :
    Settles (said.toList ++ layers) primary (c.apply (said.getD {})) := by
  cases said with
  | none => exact hc
  | some layer => exact hc.apply h.nodup

/-- A root namespace has no backslash at either end, whichever source it comes from. -/
theorem Settles.bare_rootSpace {disk : Disk} {root : String} {layers : List Layer} {c : Config}
    (h : Settles layers (Mapping.primary? (Mapping.ofProject disk root)) c) {space : String}
    (hspace : c.rootSpace = some space) :
    space.toList.head? ≠ some '\\' ∧ space.toList.getLast? ≠ some '\\' := by
  have hends := h.rootSpace.symm.trans hspace
  rcases Option.or_eq_some_iff.mp hends with hset | ⟨-, hmapped⟩
  · obtain ⟨written, -, rfl⟩ := Option.map_eq_some_iff.mp hset
    rw [Name.bare, stripText, String.toList_ofList]
    exact ⟨fun h => by simpa using not_of_head?_stripWhile h,
      fun h => by simpa using not_of_getLast?_dropEndWhile h⟩
  · -- a mapping's own prefix is cleared in front when it is read, so that only its end is left to
    -- trim
    obtain ⟨m, hm, rfl⟩ := Option.map_eq_some_iff.mp hmapped
    rw [Mapping.space, stripTextEnd, String.toList_ofList]
    have hmem := (Mapping.isPrimary_of_primary? hm).mem
    exact ⟨fun h => Mapping.head?_spacePrefix hmem (head?_of_dropEndWhile h),
      fun h => by simpa using not_of_getLast?_dropEndWhile h⟩

/-- Whatever the user's file, the project's file, the manifest and the command line say, each
setting is that of the first layer that has it, from the command line down; the primary mapping
counts for a root namespace and root path that no layer has. The configuration is refused exactly
if no run can start with it. -/
theorem load_settles {disk : Disk} {userFile : Option String} {root : String}
    {user project : Option Layer} (huser : FileSays disk userFile user)
    (hproject : FileSays disk (some (projectFile root)) project)
    (commandLine : Layer) (hcommandLine : commandLine.thirdParty.keys.Nodup) :
    ∃ c,
      Settles (commandLine :: (project.toList ++ user.toList))
        (Mapping.primary? (Mapping.ofProject disk root)) c ∧
      (c.Usable → load disk userFile root commandLine = .ok c) ∧
      (¬ c.Usable → ∃ problem, load disk userFile root commandLine = .error (.config problem)) ∧
      (∀ space, c.rootSpace = some space →
        space.toList.head? ≠ some '\\' ∧ space.toList.getLast? ≠ some '\\') ∧
      ∀ m, Mapping.primary? (Mapping.ofProject disk root) = some m →
        Mapping.IsPrimary (Mapping.ofProject disk root) m := by
  rw [load_eq_ofLayers huser hproject]
  -- from the lowest source up; the command line comes over the mappings, which `Settles` counts
  -- last all the same
  have huserLayer := (settles_default root).apply_said huser
  rw [List.append_nil] at huserLayer
  have hsettles :=
    ((huserLayer.apply_said hproject).useMappings (Mapping.ofProject disk root)).apply hcommandLine
  refine ⟨_, hsettles, fun husable => ?_, fun hunusable => ?_,
    fun _ hspace => hsettles.bare_rootSpace hspace, fun _ hm => Mapping.isPrimary_of_primary? hm⟩
  · rw [ofLayers, (problem?_eq_none_iff _).mpr husable]
  · rw [← problem?_eq_none_iff] at hunusable
    obtain ⟨problem, hproblem⟩ := Option.ne_none_iff_exists'.mp hunusable
    exact ⟨problem, by rw [ofLayers, hproblem]⟩

/-- A file of the user that sets what the project sets, and more. -/
def userText : String := "root_namespace = 'Own'\nbase_url = '/api'\n[third_party]\nPsr = '/psr'\n"

/-- A file of the project. -/
def projectText : String := "root_namespace = '\\Lib\\'\nworkers = 3\n"

/-- Both files, and a manifest. -/
def layeredDisk : Disk where
  nodes :=
    [(["p"], .directory), (["u"], .file userText),
      (["p", ".phpantom-docs.toml"], .file projectText),
      (["p", "composer.json"],
        .file "\x7b\"autoload\":\x7b\"psr-4\":\x7b\"App\\\\\":\"src\"\x7d\x7d\x7d")]

theorem load_settles_layeredDisk :
    ∃ c, load layeredDisk (some "/u") "/p" { workers := some 4 } = .ok c ∧
      c.rootSpace = some "Lib" ∧
      c.rootPath = some "src/" ∧ c.baseUrl = "/api" ∧ c.workers = some 4 ∧
        c.thirdParty.find? "Psr" = some "/psr" := by
  have huser : (Layer.parse? userText).map
      (fun l => (l.baseUrl, l.rootPath, l.timeoutSecs, l.thirdParty.find? "Psr")) =
      some (some "/api", none, none, some "/psr") := by
    decide +kernel
  have hproject : (Layer.parse? projectText).map
        (fun l => (l.rootSpace, l.rootPath, l.baseUrl, l.timeoutSecs, l.thirdParty.find? "Psr")) =
      some (some "\\Lib\\", none, none, none, none) := by
    decide +kernel
  obtain ⟨user, hparseUser, huser⟩ := Option.map_eq_some_iff.mp huser
  obtain ⟨project, hparseProject, hproject⟩ := Option.map_eq_some_iff.mp hproject
  simp only [Prod.mk.injEq] at huser hproject
  have hreadUser : layeredDisk.read "/u" = .ok userText := by decide +kernel
  have hreadProject : layeredDisk.read (projectFile "/p") = .ok projectText := by decide +kernel
  obtain ⟨c, hc, hok, -⟩ :=
    load_settles (.holds hreadUser hparseUser) (.holds hreadProject hparseProject)
    { workers := some 4 } List.nodup_nil
  have hspace : c.rootSpace = some "Lib" := by
    simp only [hc.rootSpace, Option.toList_some, List.cons_append, List.findSome?_cons, hproject]
    decide +kernel
  have hpath : c.rootPath = some "src/" := by
    simp only [hc.rootPath, Option.toList_some, List.cons_append, List.nil_append,
      List.findSome?_cons, List.findSome?_nil, huser, hproject]
    decide +kernel
  have hworkers : c.workers = some 4 := hc.workers
  have htimeout : c.timeoutSecs = 10 := by simp [hc.timeoutSecs, huser, hproject]
  refine ⟨c, hok ⟨⟨"Lib", hspace, by decide⟩, by simp [htimeout], by simp [hworkers]⟩, hspace,
    hpath, ?_, hworkers, ?_⟩
  · simp [hc.baseUrl, huser, hproject]
  · have hsilent : ({ workers := some 4 } : Layer).thirdParty.find? "Psr" = none := rfl
    simp [hc.thirdParty, hsilent, huser, hproject]

end Config

end ClassDocs
