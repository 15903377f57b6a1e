import InferStack.Controller.Keys
import InferStack.EnvText
import Mathlib.Data.List.TakeWhile

/-!
# InferStack.Gateway.Salt

The master key of the gateway, and the key its database stays encrypted with.

The stored credentials are encrypted with the salt key if there is one, and with
the master key otherwise.  Setting a master key pins the old one as the salt
before it goes, so that the key in effect never changes.  A key that is given
with further assignments on lines of its own changes other values along with the
one it is for (`salted_key_changes`); without such keys every run of sets,
rotations and their undoing keeps the key in effect (`keys_kept`).
-/

namespace InferStack

open Kit

/-! ## the operations on the text -/

/-- LiteLLM rejects other keys. -/
def acceptsKey (key : String) : Bool := "sk-".toList.isPrefixOf key.toList

/-- The master key of an environment. -/
def currentKey (existing : Dict String String) : String :=
  strip ((existing.get? apiKeyEnv).getD "")

/-- No salt is pinned yet, and the master key is about to change. -/
def PinsSalt (existing : Dict String String) (key : String) : Prop :=
  currentKey existing ≠ "" ∧ currentKey existing ≠ key ∧
    strip ((existing.get? saltKeyEnv).getD "") = ""

instance (existing : Dict String String) (key : String) : Decidable (PinsSalt existing key) :=
  inferInstanceAs (Decidable (_ ∧ _ ∧ _))

/-- What setting a master key writes, the old one as the salt if none is pinned. -/
def masterKeyValues (existing : Dict String String) (key : String) : Dict String String :=
  let values : Dict String String := (∅ : Dict String String).set apiKeyEnv key
  if PinsSalt existing key then values.set saltKeyEnv (currentKey existing) else values

namespace EnvText

/-- Replace the master key of a `.env` text. -/
def setMasterKey (text : List Char) (key : String) : Except String (List Char) :=
  if acceptsKey key then .ok (writeEnvText text (masterKeyValues (parseEnvText text) key))
  else .error (apiKeyEnv ++ " must start with \"sk-\" (LiteLLM rejects others)")

/-- The two keys of a text. -/
def keys (text : List Char) : ReplacedKeys :=
  ⟨(parseEnvText text).get? apiKeyEnv, (parseEnvText text).get? saltKeyEnv⟩

end EnvText

/-- A token as `token_urlsafe` makes it. -/
structure Token where
  text : String
  urlSafe : ∀ c ∈ text.toList, c.isAlphanum ∨ c = '-' ∨ c = '_'

def Token.masterKey (t : Token) : String := "sk-" ++ t.text

namespace EnvText

/-- Write a fresh master key; what it replaced, and the new text. -/
def rotateMasterKey (text : List Char) (token : Token) :
    Except String (ReplacedKeys × List Char) := do
  let before := keys text
  let text ← setMasterKey text token.masterKey
  return (before, text)

end EnvText

namespace ReplacedKeys

def items (r : ReplacedKeys) : List (String × Option String) :=
  [(apiKeyEnv, r.apiKey), (saltKeyEnv, r.saltKey)]

/-- The values that were there. -/
def written (r : ReplacedKeys) : Dict String String :=
  Table.ofList (r.items.filterMap fun kv => kv.2.map fun v => (kv.1, v))

/-- The names that were not. -/
def missing (r : ReplacedKeys) : List String :=
  (r.items.filter fun kv => kv.2.isNone).map Prod.fst

end ReplacedKeys

namespace EnvText

/-- Put back what a rotation replaced. -/
def restoreEnv (text : List Char) (replaced : ReplacedKeys) : List Char :=
  removeEnvText (writeEnvText text replaced.written) replaced.missing

end EnvText

/-! ## runs -/

/-- The file, and what the rotations so far returned, the oldest first. -/
structure KeyFile where
  text : List Char
  replaced : List ReplacedKeys := []

/-- A call on the file; `restore n` undoes the rotation number `n`. -/
inductive KeyStep
  | set (key : String)
  | rotate (token : Token)
  | restore (n : Nat)

namespace KeyFile

/-- One call; a refused one leaves the file alone. -/
def step (s : KeyFile) : KeyStep → KeyFile
  | .set key =>
      match EnvText.setMasterKey s.text key with
      | .ok text => { s with text }
      | .error _ => s
  | .rotate token =>
      match EnvText.rotateMasterKey s.text token with
      | .ok (before, text) => ⟨text, s.replaced ++ [before]⟩
      | .error _ => s
  | .restore n =>
      match s.replaced[n]? with
      | some replaced => { s with text := EnvText.restoreEnv s.text replaced }
      | none => s

def run (s : KeyFile) (steps : List KeyStep) : KeyFile := steps.foldl step s

end KeyFile

theorem accepts_masterKey (t : Token) : acceptsKey t.masterKey = true := by
  rw [acceptsKey, Token.masterKey, String.toList_append]
  exact List.isPrefixOf_iff_prefix.mpr (List.prefix_append _ _)

theorem EnvText.setMasterKey_accepted (text : List Char) {key : String}
    (h : acceptsKey key = true) : EnvText.setMasterKey text key =
      .ok (writeEnvText text (masterKeyValues (parseEnvText text) key)) := by
  rw [EnvText.setMasterKey, if_pos h]

namespace KeyFile

variable {s : KeyFile} {key : String} {n : Nat} {r : ReplacedKeys}

theorem step_set (h : acceptsKey key = true) : s.step (.set key) =
    { s with text := writeEnvText s.text (masterKeyValues (parseEnvText s.text) key) } := by
  simp only [step, EnvText.setMasterKey_accepted s.text h]

theorem step_refused (h : ¬ acceptsKey key = true) : s.step (.set key) = s := by
  simp only [step, EnvText.setMasterKey, if_neg h]

theorem step_rotate (token : Token) : s.step (.rotate token) =
    ⟨writeEnvText s.text (masterKeyValues (parseEnvText s.text) token.masterKey),
      s.replaced ++ [EnvText.keys s.text]⟩ := by
  have hset := EnvText.setMasterKey_accepted s.text (accepts_masterKey token)
  simp only [step, EnvText.rotateMasterKey, hset]
  rfl

theorem step_restore (h : s.replaced[n]? = some r) :
    s.step (.restore n) = { s with text := EnvText.restoreEnv s.text r } := by
  simp only [step, h]

theorem step_unreplaced (h : s.replaced[n]? = none) : s.step (.restore n) = s := by
  simp only [step, h]

theorem run_append (s : KeyFile) (steps more : List KeyStep) :
    s.run (steps ++ more) = (s.run steps).run more := List.foldl_append

/-- What a rotation returned is not forgotten. -/
theorem replaced_run (s : KeyFile) (steps : List KeyStep) :
    ∃ more, (s.run steps).replaced = s.replaced ++ more := by
  induction steps generalizing s with
  | nil => exact ⟨[], by simp [run]⟩
  | cons st steps ih =>
      obtain ⟨more, hmore⟩ := ih (s.step st)
      have hstep : ∃ one, (s.step st).replaced = s.replaced ++ one := by
        cases st with
        | set key =>
            by_cases h : acceptsKey key = true
            · exact ⟨[], by simp [step_set h]⟩
            · exact ⟨[], by simp [step_refused h]⟩
        | rotate token => exact ⟨[EnvText.keys s.text], by rw [step_rotate]⟩
        | restore n =>
            cases h : s.replaced[n]? with
            | none => exact ⟨[], by simp [step_unreplaced h]⟩
            | some r => exact ⟨[], by simp [step_restore h]⟩
      obtain ⟨one, hone⟩ := hstep
      refine ⟨one ++ more, ?_⟩
      rw [← List.append_assoc, ← hone]
      exact hmore

end KeyFile

/-- The key that stored credentials are encrypted with. -/
def encryptionKey (keys : ReplacedKeys) : String :=
  match keys.saltKey.filter (· ≠ "") with
  | some salt => salt
  | none => keys.apiKey.getD ""

theorem encryptionKey_salted (api : Option String) {salt : String} (h : salt ≠ "") :
    encryptionKey ⟨api, some salt⟩ = salt := by
  have hfilter : (some salt).filter (· ≠ "") = some salt := by simp [h]
  unfold encryptionKey
  rw [hfilter]

theorem encryptionKey_unsalted (api : Option String) {salt : Option String}
    (h : salt = none ∨ salt = some "") : encryptionKey ⟨api, salt⟩ = api.getD "" := by
  cases h with
  | inl h => rw [h]; rfl
  | inr h => rw [h]; rfl

/-- No run of the calls strands what is stored, and undoing a rotation undoes it
whole. -/
structure KeysKept (text : List Char) (steps : List KeyStep) : Prop where
  encryption : ∀ before after, steps = before ++ after →
    encryptionKey (EnvText.keys (KeyFile.run ⟨text, []⟩ before).text) =
      encryptionKey (EnvText.keys text)
  restored : ∀ before token between after,
    steps = before ++ .rotate token :: between ++
      .restore (KeyFile.run ⟨text, []⟩ before).replaced.length :: after →
    ∀ k, (parseEnvText (KeyFile.run ⟨text, []⟩ (before ++ .rotate token :: between ++
        [.restore (KeyFile.run ⟨text, []⟩ before).replaced.length])).text).get? k =
      (parseEnvText (KeyFile.run ⟨text, []⟩ before).text).get? k

/-- A key that is set brings no assignments of other lines with it. -/
def KeyStep.OneLine : KeyStep → Prop
  | .set key => acceptsKey key → InferStack.OneLine key
  | _ => True

instance (step : KeyStep) : Decidable step.OneLine :=
  match step with
  | .set key => inferInstanceAs (Decidable (acceptsKey key → OneLine key))
  | .rotate _ | .restore _ => .isTrue trivial

/-! ## what the operations read back as -/

theorem stripped_strip {v : String} (h : strip v = v) :
    (∀ c ∈ v.toList.head?, isSpace c = false) ∧ CleanValue v := by
  have hlist : stripped v.toList = v.toList := by
    have hl := congrArg String.toList h
    rwa [strip, String.toList_ofList] at hl
  constructor
  · intro c hc
    have hnot := List.head?_dropWhile_not isSpace v.toList
    have hhead : (v.toList.dropWhile isSpace).head? = some c := by
      have hne : stripped v.toList ≠ [] := by
        rw [hlist]
        intro hnil
        simp [hnil] at hc
      have hpre : stripped v.toList <+: v.toList.dropWhile isSpace := by
        have hsuf := List.dropWhile_suffix isSpace (l := (v.toList.dropWhile isSpace).reverse)
        have hrev := List.reverse_prefix.mpr hsuf
        rwa [List.reverse_reverse] at hrev
      obtain ⟨rest, hrest⟩ := hpre
      rw [← hrest, List.head?_append_of_ne_nil _ hne, hlist]
      exact hc
    rw [hhead] at hnot
    simpa using hnot
  · intro c hc
    rw [← hlist] at hc
    exact getLast?_stripped hc

theorem strip_of_ends {v : String} (hhead : ∀ c ∈ v.toList.head?, isSpace c = false)
    (hlast : CleanValue v) : strip v = v := by
  rw [strip, stripped_of_ends hhead hlast, String.ofList_toList]

theorem oneLine_strip {v : String} (h : Unbroken v.toList) :
    readBack (strip v) = strip v ∧ OneLine (strip v) := by
  refine readBack_of_clean (fun c hc => ?_) fun c hc => ?_
  · rw [strip, String.toList_ofList] at hc
    exact h c ((List.dropWhile_suffix _).subset (mem_of_mem_rstripped (l := v.toList.dropWhile isSpace) hc))
  · rw [strip, String.toList_ofList] at hc
    exact getLast?_stripped hc

section Set

variable {text text' : List Char} {key : String}

theorem oneLine_currentKey : readBack (currentKey (parseEnvText text)) = currentKey (parseEnvText text) ∧
    OneLine (currentKey (parseEnvText text)) := by
  refine oneLine_strip ?_
  cases hget : (parseEnvText text).get? apiKeyEnv with
  | none => intro c hc; simp at hc
  | some v => exact unbroken_of_parse hget

theorem get?_masterKeyValues (env : Dict String String) (k : String) :
    (masterKeyValues env key).get? k =
      if k = saltKeyEnv ∧ PinsSalt env key then some (currentKey env)
      else if k = apiKeyEnv then some key else none := by
  unfold masterKeyValues
  by_cases hpins : PinsSalt env key
  · simp [hpins, Dict.get?_set, eq_comm]
  · simp [hpins, Dict.get?_set, eq_comm]

/-- What setting a key writes can be read back. -/
theorem masterKeyValues_written (hline : OneLine key) {k v : String}
    (h : (masterKeyValues (parseEnvText text) key).get? k = some v) : PlainKey k ∧ OneLine v := by
  rw [get?_masterKeyValues] at h
  split at h
  · rename_i hk
    exact ⟨hk.1 ▸ plainKey_salt, Option.some.inj h ▸ oneLine_currentKey.2⟩
  · split at h
    · rename_i hk
      exact ⟨hk ▸ plainKey_api, Option.some.inj h ▸ hline⟩
    · simp at h

theorem get?_setMasterKeyText (h : EnvText.setMasterKey text key = .ok text') (hline : OneLine key)
    (k : String) : (parseEnvText text').get? k =
      (((masterKeyValues (parseEnvText text) key).get? k).map readBack).or
        ((parseEnvText text).get? k) := by
  unfold EnvText.setMasterKey at h
  split at h
  · rw [← Except.ok.inj h]
    exact get?_parse_writeText (fun k v hkv => (masterKeyValues_written hline hkv).1)
      (fun k v hkv => (masterKeyValues_written hline hkv).2) text k
  · contradiction

end Set

namespace ReplacedKeys

theorem get?_written (r : ReplacedKeys) (k : String) : r.written.get? k =
    if k = saltKeyEnv then r.saltKey else if k = apiKeyEnv then r.apiKey else none := by
  have hne := apiKeyEnv_ne_saltKeyEnv
  obtain ⟨api, salt⟩ := r
  have hnodup : ((items ⟨api, salt⟩).filterMap fun kv => kv.2.map fun v => (kv.1, v)).map
      Prod.fst |>.Nodup := by
    cases api <;> cases salt <;> simp [items, hne]
  unfold written Dict.get?
  rw [Table.find?_ofList hnodup]
  by_cases hsalt : k = saltKeyEnv
  · subst hsalt
    cases api <;> cases salt <;> simp [items, hne]
  · by_cases hapi : k = apiKeyEnv
    · subst hapi
      cases api <;> cases salt <;> simp [items, hne, Ne.symm hne]
    · cases api <;> cases salt <;> simp [items, hsalt, hapi, Ne.symm hsalt, Ne.symm hapi]

theorem mem_missing (r : ReplacedKeys) (k : String) : k ∈ r.missing ↔
    (k = apiKeyEnv ∧ r.apiKey = none) ∨ (k = saltKeyEnv ∧ r.saltKey = none) := by
  obtain ⟨api, salt⟩ := r
  cases api <;> cases salt <;> simp [missing, items]

/-- Values as a file can hold them. -/
def Written (r : ReplacedKeys) : Prop := ∀ v, r.apiKey = some v ∨ r.saltKey = some v →
  Unbroken v.toList ∧ CleanValue v

end ReplacedKeys

/-- On the text, undoing a rotation is what it is on the dictionary. -/
theorem parse_restoreEnv {r : ReplacedKeys} (hr : r.Written) (text : List Char) (k : String) :
    (parseEnvText (EnvText.restoreEnv text r)).get? k =
      (putBack (putBack (parseEnvText text) apiKeyEnv r.apiKey) saltKeyEnv r.saltKey).get? k := by
  have hwritten : ∀ k v, r.written.get? k = some v → PlainKey k ∧ readBack v = v ∧ OneLine v := by
    intro k v h
    rw [ReplacedKeys.get?_written] at h
    split at h
    · rename_i hk
      have hv := hr v (.inr h)
      exact ⟨hk ▸ plainKey_salt, readBack_of_clean hv.1 hv.2⟩
    · split at h
      · rename_i hk
        have hv := hr v (.inl h)
        exact ⟨hk ▸ plainKey_api, readBack_of_clean hv.1 hv.2⟩
      · simp at h
  have hmissing : ∀ k ∈ r.missing, PlainKey k := by
    intro k hk
    cases (r.mem_missing k).mp hk with
    | inl h => exact h.1 ▸ plainKey_api
    | inr h => exact h.1 ▸ plainKey_salt
  have hback : (r.written.get? k).map readBack = r.written.get? k := by
    cases hget : r.written.get? k with
    | none => rfl
    | some v => rw [Option.map_some, (hwritten k v hget).2.1]
  unfold EnvText.restoreEnv
  rw [get?_parse_removeText _ hmissing, get?_parse_writeText (fun k v h => (hwritten k v h).1)
    (fun k v h => (hwritten k v h).2.2), hback, ReplacedKeys.get?_written, get?_putBack,
    get?_putBack]
  simp only [ReplacedKeys.mem_missing]
  by_cases hsalt : k = saltKeyEnv
  · subst hsalt
    cases r.saltKey <;> simp [Ne.symm apiKeyEnv_ne_saltKeyEnv]
  · by_cases hapi : k = apiKeyEnv
    · subst hapi
      cases r.apiKey <;> simp [apiKeyEnv_ne_saltKeyEnv]
    · simp [hsalt, hapi]

/-! ## what every call keeps -/

/-- A master key in the file. -/
structure HeldKey (key : String) : Prop where
  nonempty : key ≠ ""
  stripped : strip key = key
  unbroken : Unbroken key.toList

/-- Keys of a file that encrypts with `encrypted`. -/
structure HeldKeys (encrypted : String) (keys : ReplacedKeys) : Prop where
  master : ∃ key, keys.apiKey = some key ∧ HeldKey key
  salt : ∀ v, keys.saltKey = some v → Unbroken v.toList ∧ CleanValue v
  encryption : encryptionKey keys = encrypted

theorem HeldKeys.written {encrypted : String} {keys : ReplacedKeys}
    (h : HeldKeys encrypted keys) : keys.Written := by
  intro v hv
  cases hv with
  | inl hapi =>
      obtain ⟨key, hkey, hheld⟩ := h.master
      obtain rfl := Option.some.inj (hapi.symm.trans hkey)
      exact ⟨hheld.unbroken, (stripped_strip hheld.stripped).2⟩
  | inr hsalt => exact h.salt v hsalt

theorem mem_stripped {l : List Char} {c : Char} (h : c ∈ l) (hspace : isSpace c = false) :
    c ∈ stripped l := by
  have hdrop : ∀ l : List Char, c ∈ l → c ∈ l.dropWhile isSpace := by
    intro l hl
    rw [← List.takeWhile_append_dropWhile (p := isSpace) (l := l)] at hl
    cases List.mem_append.mp hl with
    | inl htake =>
        have htrue : isSpace c = true := List.mem_takeWhile_imp htake
        simp [htrue] at hspace
    | inr hin => exact hin
  exact List.mem_reverse.mpr (hdrop _ (List.mem_reverse.mpr (hdrop l h)))

/-- A value that was read is blank only where it is empty. -/
theorem strip_eq_empty {v : String} (h : CleanValue v) : strip v = "" ↔ v = "" := by
  constructor
  · intro hstrip
    by_contra hne
    have hlist : v.toList ≠ [] := fun hnil => hne (String.toList_eq_nil_iff.mp hnil)
    have hlast := List.getLast?_eq_some_getLast hlist
    have hspace : isSpace (v.toList.getLast hlist) = false := h _ hlast
    have hin := mem_stripped (List.getLast_mem hlist) hspace
    have hnil : stripped v.toList = [] := by
      have hl := congrArg String.toList hstrip
      rwa [strip, String.toList_ofList] at hl
    rw [hnil] at hin
    contradiction
  · rintro rfl
    rfl

theorem readBack_accepted {key : String} (h : acceptsKey key = true) :
    readBack key ≠ "" ∧ strip (readBack key) = readBack key := by
  obtain ⟨rest, hrest⟩ := List.isPrefixOf_iff_prefix.mp h
  have hunbroken : Unbroken "sk-".toList := by
    intro c hc
    have hin : c = 's' ∨ c = 'k' ∨ c = '-' := by simpa using hc
    rcases hin with rfl | rfl | rfl <;> decide
  have hfirst : (splitLines key.toList).head?.getD [] =
      "sk-".toList ++ (splitLines rest).head?.getD [] := by
    rw [← hrest, splitLines_of_unbroken hunbroken rest (by simp)]
    rfl
  have hlast : ∃ c ∈ "sk-".toList.getLast?, isSpace c = false := ⟨'-', by simp, by decide⟩
  have hback : (readBack key).toList =
      "sk-".toList ++ rstripped ((splitLines rest).head?.getD []) := by
    rw [readBack, String.toList_ofList, hfirst, rstripped_append hlast]
  constructor
  · intro hnil
    rw [hnil] at hback
    simp at hback
  · refine strip_of_ends (fun c hc => ?_) (cleanValue_readBack key)
    rw [hback] at hc
    have hs : c = 's' := by simpa [eq_comm] using hc
    exact hs ▸ by decide

section Steps

variable {text text' : List Char} {key encrypted : String}

/-- The keys of the text after one was set. -/
theorem keys_setMasterKey (h : EnvText.setMasterKey text key = .ok text') (hline : OneLine key) :
    EnvText.keys text' = ⟨some (readBack key),
      if PinsSalt (parseEnvText text) key then some (currentKey (parseEnvText text))
      else (parseEnvText text).get? saltKeyEnv⟩ := by
  have hne := apiKeyEnv_ne_saltKeyEnv
  unfold EnvText.keys
  rw [get?_setMasterKeyText h hline, get?_setMasterKeyText h hline, get?_masterKeyValues,
    get?_masterKeyValues]
  by_cases hpins : PinsSalt (parseEnvText text) key
  · simp [hne, hpins, oneLine_currentKey.1]
  · simp [hne, Ne.symm hne, hpins]

/-- Setting a key pins the one in effect. -/
theorem HeldKeys.setMasterKey (hheld : HeldKeys encrypted (EnvText.keys text))
    (h : EnvText.setMasterKey text key = .ok text') (hline : OneLine key) :
    HeldKeys encrypted (EnvText.keys text') := by
  have haccepts : acceptsKey key = true := by
    unfold EnvText.setMasterKey at h
    split at h
    · assumption
    · contradiction
  obtain ⟨old, hold, holdkey⟩ := hheld.master
  have hcurrent : currentKey (parseEnvText text) = old := by
    have hget : (parseEnvText text).get? apiKeyEnv = some old := hold
    rw [currentKey, hget, Option.getD_some, holdkey.stripped]
  have hnew := readBack_accepted haccepts
  have hback : old = key → readBack key = old := by
    rintro rfl
    exact (readBack_of_clean holdkey.unbroken (stripped_strip holdkey.stripped).2).1
  -- what the keys before say of the salt
  have hunsalted : (parseEnvText text).get? saltKeyEnv = none ∨
      (parseEnvText text).get? saltKeyEnv = some "" → old = encrypted := by
    intro hblank
    have hkeys := encryptionKey_unsalted ((parseEnvText text).get? apiKeyEnv) hblank
    have hapi : (parseEnvText text).get? apiKeyEnv = some old := hold
    rw [← hheld.encryption, EnvText.keys, hkeys, hapi, Option.getD_some]
  have hsalted : ∀ salt, (parseEnvText text).get? saltKeyEnv = some salt → salt ≠ "" →
      salt = encrypted ∧ strip salt ≠ "" := by
    intro salt hsalt hne
    refine ⟨?_, fun hs => hne ((strip_eq_empty (hheld.salt salt hsalt).2).mp hs)⟩
    rw [← hheld.encryption, EnvText.keys, hsalt, encryptionKey_salted _ hne]
  rw [keys_setMasterKey h hline]
  refine ⟨⟨readBack key, rfl, hnew.1, hnew.2, unbroken_readBack key⟩, fun v hv => ?_, ?_⟩
  · dsimp only at hv
    split at hv
    · rw [hcurrent] at hv
      exact Option.some.inj hv ▸ ⟨holdkey.unbroken, (stripped_strip holdkey.stripped).2⟩
    · exact hheld.salt v hv
  · by_cases hpins : PinsSalt (parseEnvText text) key
    · -- the old key becomes the salt
      rw [if_pos hpins, hcurrent]
      have hblank : (parseEnvText text).get? saltKeyEnv = none ∨
          (parseEnvText text).get? saltKeyEnv = some "" := by
        cases hget : (parseEnvText text).get? saltKeyEnv with
        | none => exact .inl rfl
        | some salt =>
            by_cases hne : salt = ""
            · exact .inr (hne ▸ rfl)
            · have hstrip := hpins.2.2
              rw [hget] at hstrip
              exact absurd hstrip (hsalted salt hget hne).2
      rw [encryptionKey_salted _ holdkey.nonempty]
      exact hunsalted hblank
    · rw [if_neg hpins]
      have hkept : (parseEnvText text).get? saltKeyEnv = none ∨
          (parseEnvText text).get? saltKeyEnv = some "" → readBack key = encrypted := by
        intro hblank
        rw [← hunsalted hblank]
        refine hback (by_contra fun hchanged => hpins ⟨?_, ?_, ?_⟩)
        · rw [hcurrent]
          exact holdkey.nonempty
        · rw [hcurrent]
          exact hchanged
        · cases hblank with
          | inl h => rw [h]; rfl
          | inr h => rw [h]; rfl
      cases hget : (parseEnvText text).get? saltKeyEnv with
      | none =>
          rw [encryptionKey_unsalted _ (.inl rfl)]
          exact hkept (.inl hget)
      | some salt =>
          by_cases hne : salt = ""
          · subst hne
            rw [encryptionKey_unsalted _ (.inr rfl)]
            exact hkept (.inr hget)
          · rw [encryptionKey_salted _ hne]
            exact (hsalted salt hget hne).1

/-- Setting a key leaves every other value. -/
theorem get?_setMasterKey_other (h : EnvText.setMasterKey text key = .ok text')
    (hline : OneLine key) {k : String} (hapi : k ≠ apiKeyEnv) (hsalt : k ≠ saltKeyEnv) :
    (parseEnvText text').get? k = (parseEnvText text).get? k := by
  rw [get?_setMasterKeyText h hline, get?_masterKeyValues]
  simp [hapi, hsalt]

/-- Undoing a rotation puts its two keys back. -/
theorem keys_restoreEnv {r : ReplacedKeys} (hr : r.Written) (text : List Char) :
    EnvText.keys (EnvText.restoreEnv text r) = r := by
  unfold EnvText.keys
  rw [parse_restoreEnv hr, parse_restoreEnv hr, get?_putBack, get?_putBack, get?_putBack,
    if_neg apiKeyEnv_ne_saltKeyEnv, if_pos rfl, if_pos rfl]

theorem get?_restoreEnv_other {r : ReplacedKeys} (hr : r.Written) (text : List Char) {k : String}
    (hapi : k ≠ apiKeyEnv) (hsalt : k ≠ saltKeyEnv) :
    (parseEnvText (EnvText.restoreEnv text r)).get? k = (parseEnvText text).get? k := by
  rw [parse_restoreEnv hr, get?_putBack, get?_putBack, if_neg hsalt, if_neg hapi]

end Steps

theorem isSpace_urlSafe {c : Char} (h : c.isAlphanum ∨ c = '-' ∨ c = '_') :
    isSpace c = false := by
  have hrange : 45 ≤ c.val.toNat ∧ c.val.toNat ≤ 122 := by
    rcases h with h | rfl | rfl
    · delta Char.isAlphanum Char.isAlpha Char.isUpper Char.isLower Char.isDigit at h
      simp only [Bool.or_eq_true, Bool.and_eq_true, decide_eq_true_eq, ge_iff_le,
        UInt32.le_iff_toNat_le] at h
      simp only [Char.reduceVal, UInt32.reduceToNat] at h
      omega
    · decide
    · decide
  simp only [isSpace, UInt32.le_iff_toNat_le, ← UInt32.toNat_inj, Bool.or_eq_false_iff,
    Bool.and_eq_false_iff, decide_eq_false_iff_not, List.mem_cons, List.not_mem_nil, or_false,
    UInt32.reduceToNat]
  omega

/-- A generated key is a line without whitespace. -/
theorem oneLine_masterKey (t : Token) : OneLine t.masterKey := by
  have hspace : ∀ c ∈ t.masterKey.toList, isSpace c = false := by
    intro c hc
    rw [Token.masterKey, String.toList_append] at hc
    cases List.mem_append.mp hc with
    | inl h =>
        have hin : c = 's' ∨ c = 'k' ∨ c = '-' := by simpa using h
        rcases hin with rfl | rfl | rfl <;> decide
    | inr h => exact isSpace_urlSafe (t.urlSafe c h)
  refine (readBack_of_clean (fun c hc => ?_) fun c hc => ?_).2
  · cases hb : isLineBreak c with
    | false => rfl
    | true =>
        have htrue := isSpace_of_isLineBreak hb
        simp [hspace c hc] at htrue
  · exact hspace c (List.mem_of_mem_getLast? hc)

/-- The file after some calls: it encrypts with the same key, and so does what
can be put back; no other value moves. -/
structure HeldFile (encrypted : String) (env : Dict String String) (s : KeyFile) : Prop where
  held : HeldKeys encrypted (EnvText.keys s.text)
  others : ∀ k, k ≠ apiKeyEnv → k ≠ saltKeyEnv → (parseEnvText s.text).get? k = env.get? k
  replaced : ∀ r ∈ s.replaced, HeldKeys encrypted r

namespace HeldFile

variable {encrypted : String} {env : Dict String String} {s : KeyFile}

theorem set {key : String} {text : List Char} (h : HeldFile encrypted env s)
    (hset : EnvText.setMasterKey s.text key = .ok text) (hline : OneLine key) :
    HeldFile encrypted env { s with text } where
  held := h.held.setMasterKey hset hline
  others k hapi hsalt :=
    (get?_setMasterKey_other hset hline hapi hsalt).trans (h.others k hapi hsalt)
  replaced := h.replaced

theorem step (h : HeldFile encrypted env s) (step : KeyStep) (hline : step.OneLine) :
    HeldFile encrypted env (s.step step) := by
  cases step with
  | set key =>
      by_cases haccepts : acceptsKey key = true
      · have hset := EnvText.setMasterKey_accepted s.text haccepts
        rw [KeyFile.step_set haccepts]
        exact h.set hset (hline haccepts)
      · rw [KeyFile.step_refused haccepts]
        exact h
  | rotate token =>
      have hset := EnvText.setMasterKey_accepted s.text (accepts_masterKey token)
      have hnext := h.set hset (oneLine_masterKey token)
      rw [KeyFile.step_rotate]
      refine ⟨hnext.held, hnext.others, fun r hr => ?_⟩
      cases List.mem_append.mp hr with
      | inl hold => exact h.replaced r hold
      | inr hnew => exact List.mem_singleton.mp hnew ▸ h.held
  | restore n =>
      cases hr : s.replaced[n]? with
      | none =>
          rw [KeyFile.step_unreplaced hr]
          exact h
      | some r =>
          have hheld : HeldKeys encrypted r := h.replaced r (List.mem_of_getElem? hr)
          rw [KeyFile.step_restore hr]
          refine ⟨?_, fun k hapi hsalt => ?_, h.replaced⟩
          · show HeldKeys encrypted (EnvText.keys (EnvText.restoreEnv s.text r))
            rw [keys_restoreEnv hheld.written]
            exact hheld
          · exact (get?_restoreEnv_other hheld.written s.text hapi hsalt).trans
              (h.others k hapi hsalt)

theorem run (h : HeldFile encrypted env s) (steps : List KeyStep)
    (hline : ∀ step ∈ steps, step.OneLine) : HeldFile encrypted env (s.run steps) := by
  induction steps generalizing s with
  | nil => exact h
  | cons step steps ih =>
      exact ih (h.step step (hline step List.mem_cons_self))
        fun st hst => hline st (List.mem_cons_of_mem _ hst)

end HeldFile

/-- Without keys that bring other assignments along, no run of sets, rotations
and their undoing strands what is stored, and undoing is exact. -/
theorem keys_kept (text : List Char) (key : String)
    (hkey : (parseEnvText text).get? apiKeyEnv = some key) (hne : key ≠ "")
    (hstrip : strip key = key) (steps : List KeyStep) (hline : ∀ step ∈ steps, step.OneLine) :
    KeysKept text steps := by
  have hheld : HeldKeys (encryptionKey (EnvText.keys text)) (EnvText.keys text) :=
    ⟨⟨key, hkey, hne, hstrip, unbroken_of_parse hkey⟩,
      fun v hv => ⟨unbroken_of_parse hv, cleanValue_of_parse hv⟩, rfl⟩
  have hstart : HeldFile (encryptionKey (EnvText.keys text)) (parseEnvText text) ⟨text, []⟩ :=
    ⟨hheld, fun _ _ _ => rfl, by simp⟩
  refine ⟨?_, ?_⟩
  · rintro before after rfl
    exact (hstart.run before fun st hst => hline st (List.mem_append_left _ hst)).held.encryption
  · rintro before token between after rfl k
    have hbefore := hstart.run before fun st hst => hline st (by simp [hst])
    have hall : ∀ st ∈ before ++ .rotate token :: between, st.OneLine := by
      intro st hst
      refine hline st ?_
      rw [List.mem_append] at hst ⊢
      simp only [List.mem_cons, List.mem_append] at hst ⊢
      grind
    have hbetween := hstart.run (before ++ .rotate token :: between) hall
    generalize hs : KeyFile.run ⟨text, []⟩ before = s at hbefore
    generalize hs' : KeyFile.run ⟨text, []⟩ (before ++ .rotate token :: between) = s' at hbetween
    have hsplit : KeyFile.run s (.rotate token :: between) = s' := by
      rw [← hs', KeyFile.run_append, hs]
    have hsaved : s'.replaced[s.replaced.length]? = some (EnvText.keys s.text) := by
      obtain ⟨more, hmore⟩ := KeyFile.replaced_run (s.step (.rotate token)) between
      have hrun : KeyFile.run (s.step (.rotate token)) between = s' := hsplit
      rw [hrun, KeyFile.step_rotate] at hmore
      rw [hmore]
      simp
    rw [KeyFile.run_append, hs']
    show (parseEnvText (s'.step (.restore s.replaced.length)).text).get? k = _
    rw [KeyFile.step_restore hsaved]
    have hwritten := hbefore.held.written
    by_cases hsalt : k = saltKeyEnv
    · have hback := congrArg ReplacedKeys.saltKey (keys_restoreEnv hwritten s'.text)
      exact hsalt ▸ hback
    · by_cases hapi : k = apiKeyEnv
      · have hback := congrArg ReplacedKeys.apiKey (keys_restoreEnv hwritten s'.text)
        exact hapi ▸ hback
      · show (parseEnvText (EnvText.restoreEnv s'.text _)).get? k = _
        rw [get?_restoreEnv_other hwritten s'.text hapi hsalt, hbetween.others k hapi hsalt,
          hbefore.others k hapi hsalt]

/-- A file with another value, an empty salt, and a master key. -/
def plainEnv : List Char := "A=1\r\nLITELLM_SALT_KEY=\nLITELLM_MASTER_KEY=sk-a".toList

def urlSafeToken : Token where
  text := "x_Y-0"
  urlSafe := by
    have hall : ("x_Y-0".toList.all fun c => c.isAlphanum || c = '-' || c = '_') = true := by decide
    intro c hc
    simpa [or_assoc] using List.all_eq_true.mp hall c hc

theorem keys_kept_plainEnv : KeysKept plainEnv
    [.rotate urlSafeToken, .set "sk-b ", .set "b", .restore 0] :=
  keys_kept plainEnv "sk-a" (by decide +kernel) (by decide) (by decide +kernel) _
    (by decide +kernel)

/-- A salt is pinned, and the new key comes with another one. -/
def saltedEnv : List Char := "LITELLM_SALT_KEY=s\nLITELLM_MASTER_KEY=sk-a\n".toList

def twoLines : String := "sk-b\nLITELLM_SALT_KEY=x"

theorem salted_key_changes :
    ((parseEnvText saltedEnv).get? apiKeyEnv = some "sk-a" ∧ strip "sk-a" = "sk-a") ∧
      ¬ KeysKept saltedEnv [.set twoLines] := by
  refine ⟨by decide +kernel, fun h => ?_⟩
  have hbefore : encryptionKey (EnvText.keys saltedEnv) = "s" := by decide +kernel
  have hafter : encryptionKey (EnvText.keys
      (KeyFile.run ⟨saltedEnv, []⟩ [.set twoLines]).text) = "x" := by decide +kernel
  have hkept := h.encryption [.set twoLines] [] rfl
  exact absurd (hafter.symm.trans (hkept.trans hbefore)) (by decide)

end InferStack
