import Marginalia.Proofs.Toml.Document
import Marginalia.Settings.Basic

/-!
# Settings in writing

Settings are written as a document of two entries and one table, whose entries
are there only when they are set.  The document is read back entry by entry
whatever the texts among them hold, and then the storage path is expanded once
more.
-/

namespace Marginalia

open Toml

namespace Remote

def fields (r : Remote) : List (Text × Option Text) :=
  keys.zip [r.configTemplate, r.keywordsTemplate, r.versionManifest]

def entriesOf (fields : List (Text × Option Text)) : Entries :=
  fields.filterMap fun f => f.2.map fun url => (f.1, .str url)

/-- The lines of the fields below their header; each takes at most one step. -/
theorem lines?_fields {name : Text} {es : Entries} (hname : es.get? name = none)
    {fields : List (Text × Option Text)} (hkeys : ∀ f ∈ fields, Reader.IsBareKey f.1)
    (hnodup : (fields.map Prod.fst).Nodup) {inner : Entries}
    (hnew : ∀ f ∈ fields, inner.get? f.1 = none) {limit : Nat} (hlimit : fields.length < limit) :
    Reader.lines? limit ⟨[name], es ++ [(name, .table .header inner)]⟩
        (fields.flatMap fun f => line f.1 f.2) =
      some (es ++ [(name, .table .header (inner ++ entriesOf fields))]) := by
  induction fields generalizing inner limit with
  | nil =>
      obtain ⟨limit, rfl⟩ := Nat.exists_eq_succ_of_ne_zero (Nat.ne_of_gt hlimit)
      simp [entriesOf, Reader.lines?, Reader.trivia?]
  | cons f fields ih =>
      obtain ⟨key, url⟩ := f
      obtain ⟨hkey, hothers⟩ := List.forall_mem_cons.mp hkeys
      obtain ⟨hfirst, hrest⟩ := List.forall_mem_cons.mp hnew
      obtain ⟨hfresh, hdistinct⟩ : key ∉ fields.map Prod.fst ∧ (fields.map Prod.fst).Nodup :=
        List.nodup_cons.mp hnodup
      rw [List.length_cons] at hlimit
      cases url with
      | none => exact ih hothers hdistinct hrest (Nat.lt_of_succ_lt hlimit)
      | some url =>
          obtain ⟨limit, rfl⟩ := Nat.exists_eq_succ_of_ne_zero (Nat.ne_zero_of_lt hlimit)
          have hrest' : ∀ f ∈ fields, (inner ++ [(key, Value.str url)]).get? f.1 = none := by
            intro f hf
            have hne : f.1 ≠ key := by
              intro hsame
              rw [← hsame] at hfresh
              exact hfresh (List.mem_map_of_mem hf)
            rw [Entries.get?_concat_of_ne hne]
            exact hrest f hf
          rw [List.flatMap_cons, line, Reader.lines?_entry hkey (Reader.writtenAs_write url)
              (Table.insertBelow?_header hname hfirst _),
            ih hothers hdistinct hrest' (Nat.lt_of_succ_lt_succ hlimit), List.append_assoc]
          rfl

theorem ofValue?_entriesOf (r : Remote) (origin : Origin) :
    ofValue? (.table origin (entriesOf r.fields)) = some r := by
  obtain ⟨_ | config, _ | keywords, _ | manifest⟩ := r <;> rfl

theorem isBareKey_of_mem_fields {r : Remote} {f : Text × Option Text} (hf : f ∈ r.fields) :
    Reader.IsBareKey f.1 := by
  have hkeys : ∀ key ∈ keys, Reader.IsBareKey key := by decide
  exact hkeys f.1 (List.of_mem_zip hf).1

theorem nodup_map_fields (r : Remote) : (r.fields.map Prod.fst).Nodup := by
  have hkeys : keys.Nodup := by decide
  exact hkeys

end Remote

namespace Settings

variable {env : Environment} {s : Settings} {t : Text}

def entries (s : Settings) : Entries :=
  [("storage_path".toList, .str s.storagePath), ("save_debounce_ms".toList, .int s.saveDebounce),
    ("remote".toList, .table .header (Remote.entriesOf s.remote.fields))]

theorem toText_eq (s : Settings) :
    s.toText =
      "storage_path".toList ++ [' ', '=', ' '] ++ Quoted.write s.storagePath ++ ['\n'] ++
        ("save_debounce_ms".toList ++ [' ', '=', ' '] ++ Text.ofNat s.saveDebounce ++ ['\n'] ++
          ('\n' :: ('[' :: "remote".toList ++ [']', '\n'] ++
            s.remote.fields.flatMap fun f => Remote.line f.1 f.2))) := by
  have hpath : "storage_path = ".toList = "storage_path".toList ++ [' ', '=', ' '] := by decide
  have hdebounce : "save_debounce_ms = ".toList =
      "save_debounce_ms".toList ++ [' ', '=', ' '] := by decide
  have hremote : "[remote]\n".toList = '[' :: "remote".toList ++ [']', '\n'] := by decide
  have hfields : s.remote.fields.flatMap (fun f => Remote.line f.1 f.2) =
      Remote.line "config_template_url".toList s.remote.configTemplate ++
        (Remote.line "keywords_template_url".toList s.remote.keywordsTemplate ++
          (Remote.line "version_manifest_url".toList s.remote.versionManifest ++ [])) := rfl
  unfold toText
  simp only [hpath, hdebounce, hremote, hfields]
  -- The keys stand for themselves from here on, as simp would spell them out.
  generalize "storage_path".toList = storageKey, "save_debounce_ms".toList = debounceKey,
    "remote".toList = remoteKey
  simp only [List.append_assoc, List.cons_append, List.nil_append, List.append_nil]

/-- The two entries, the header and each field take at most one step. -/
theorem lines?_toText (hdebounce : (s.saveDebounce : Int) < Int.pow 2 128) {limit : Nat}
    (hlimit : 7 ≤ limit) :
    Reader.lines? limit ⟨[], []⟩ s.toText = some s.entries := by
  obtain ⟨limit, rfl⟩ : ∃ n, limit = n + 3 := ⟨limit - 3, by omega⟩
  have hfields : s.remote.fields.length < limit := by
    have hlength : s.remote.fields.length = 3 := rfl
    omega
  rw [toText_eq,
    Reader.lines?_entry (by decide) (Reader.writtenAs_write s.storagePath)
      (Table.insertBelow?_top rfl _),
    Reader.lines?_entry (by decide) (Reader.writtenAs_ofNat hdebounce)
      (Table.insertBelow?_top rfl _),
    Reader.lines?_newline,
    Reader.lines?_header (by decide) (Table.openHeader?_new rfl)]
  exact Remote.lines?_fields rfl (fun _ => Remote.isBareKey_of_mem_fields)
    s.remote.nodup_map_fields (fun _ _ => rfl) hfields

theorem ofText?_entries (hdebounce : (s.saveDebounce : Int) < Int.pow 2 128) :
    Toml.Entries.ofText? s.toText = some s.entries := by
  have hhead : s.toText.head? ≠ some '\uFEFF' := by
    obtain ⟨r, hr⟩ : ∃ r, s.toText = 's' :: r := by
      rw [toText_eq]
      exact ⟨_, rfl⟩
    rw [hr]
    exact fun h => absurd (Option.some.inj h) (by decide)
  have hlength : 6 ≤ s.toText.length := by
    have hkey : "storage_path".toList.length = 12 := by decide
    rw [toText_eq]
    simp only [List.length_append, hkey]
    omega
  rw [Toml.Entries.ofText?_of_head? hhead, lines?_toText hdebounce (by omega)]

theorem ofEntries?_entries (hdebounce : (s.saveDebounce : Int) < Int.pow 2 64) :
    ofEntries? s.entries = some s := by
  have hperiod : debounce? s.entries = some s.saveDebounce := by
    have hget : s.entries.get? "save_debounce_ms".toList = some (.int s.saveDebounce) := rfl
    have hbound : (0 : Int) ≤ s.saveDebounce ∧ (s.saveDebounce : Int) < Int.pow 2 64 :=
      ⟨Int.natCast_nonneg _, hdebounce⟩
    rw [debounce?, hget]
    dsimp only
    rw [if_pos hbound, Int.toNat_natCast]
  have hpath : s.entries.get? "storage_path".toList = some (.str s.storagePath) := rfl
  have hremote : s.entries.get? "remote".toList =
      some (.table .header (Remote.entriesOf s.remote.fields)) := rfl
  simp only [ofEntries?, hpath, hperiod, hremote, Remote.ofValue?_entriesOf, Option.bind_eq_bind,
    Option.bind_some]
  rfl

/-- Settings in writing are read back, with the storage path expanded. -/
theorem ofText?_toText (hdebounce : (s.saveDebounce : Int) < Int.pow 2 64)
    (env : Environment) :
    ofText? env s.toText = some { s with storagePath := Expansion.path env s.storagePath } := by
  have hwide : (s.saveDebounce : Int) < Int.pow 2 128 := Int.lt_trans hdebounce (by decide +kernel)
  rw [ofText?, ofText?_entries hwide, Option.bind_eq_bind, Option.bind_some, Option.bind_eq_bind,
    ofEntries?_entries hdebounce]
  rfl

end Settings

end Marginalia
