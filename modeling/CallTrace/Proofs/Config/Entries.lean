import CallTrace.Policy.Checks
import Mathlib.Data.List.Forall2

/-!
# Alias entries

Different keys may name one call site, as a site or as one of its written forms. Of the entries for
a site the last one counts. An entry whose key cannot be read is left out and reported, and no entry
makes the reading fail.
-/

namespace CallTrace

/-- The text of a key that is not given as a site. -/
def SiteKey.text? : SiteKey → Option String
  | .site _ => none
  | .text t => some t

theorem PolicyDraft.exists_toPolicy {d : PolicyDraft} (hname : d.initializer ≠ "")
    (hdepth : ∀ n ∈ d.depthBound, 0 ≤ n) (a : AliasMap) :
    ∃ p, d.toPolicy a = .ok p ∧ p.aliases = a := by
  have hbound : ∃ bound, Policy.checkDepth d.depthBound = .ok bound := by
    cases hd : d.depthBound with
    | none => exact ⟨none, rfl⟩
    | some n => exact ⟨some n.toNat, if_pos (hdepth n hd)⟩
  obtain ⟨bound, hbound⟩ := hbound
  unfold toPolicy
  rw [require_of hname, hbound]
  exact ⟨_, rfl, rfl⟩

namespace Policy

/-- The last of the entries for the site gives these names. -/
def LastFor (es : List (SiteKey × List String)) (s : CallSite) (names : List String) : Prop :=
  ∃ before key after, es = before ++ (key, names) :: after ∧ key.read = .ok s ∧
    ∀ e ∈ after, e.1.read ≠ .ok s

/-- The written keys that name no site, in order. -/
def unreadable (es : List (SiteKey × List String)) : List String :=
  (es.filterMap fun e => e.1.text?).filter fun t => !(CallSite.parse t).isOk

/-- The report of a written key, with the reason why it cannot be read. -/
def Reports (t : String) (log : Log) : Prop :=
  ∃ e, CallSite.checkedParse t = .ok (.error e) ∧ log = .keyIgnored t e.reason

variable {es : List (SiteKey × List String)} {s : CallSite} {names : List String}

theorem get?_addAlias (a : AliasMap) (e : SiteKey × List String) (s : CallSite) :
    (addAlias a e).get? s = if e.1.read = .ok s then some (.ofList e.2) else a.get? s := by
  unfold addAlias
  cases hread : e.1.read with
  | error f => simp
  | ok t =>
    simp only [Table.get?_insert, Except.ok.injEq]
    exact ite_congr (propext eq_comm) (fun _ => rfl) fun _ => rfl

/-- Entries for other sites leave the names of a site alone. -/
theorem get?_foldl_addAlias_of_unread (a : AliasMap) (h : ∀ e ∈ es, e.1.read ≠ .ok s) :
    (es.foldl addAlias a).get? s = a.get? s := by
  induction es generalizing a with
  | nil => rfl
  | cons e es ih =>
    obtain ⟨he, hes⟩ := List.forall_mem_cons.mp h
    rw [List.foldl_cons, ih _ hes, get?_addAlias, if_neg he]

theorem get?_readAliases_of_lastFor (h : LastFor es s names) :
    (readAliases es).get? s = some (.ofList names) := by
  obtain ⟨before, key, after, rfl, hkey, hafter⟩ := h
  rw [readAliases, List.foldl_append, List.foldl_cons, get?_foldl_addAlias_of_unread _ hafter,
    get?_addAlias, if_pos hkey]

theorem get?_readAliases_of_unread (h : ∀ e ∈ es, e.1.read ≠ .ok s) :
    (readAliases es).get? s = none :=
  get?_foldl_addAlias_of_unread .empty h

theorem exists_lastFor_or_unread (es : List (SiteKey × List String)) (s : CallSite) :
    (∃ names, LastFor es s names) ∨ ∀ e ∈ es, e.1.read ≠ .ok s := by
  induction es with
  | nil => exact .inr (List.forall_mem_nil _)
  | cons e es ih =>
    rcases ih with ⟨names, before, key, after, rfl, hkey, hafter⟩ | hes
    · exact .inl ⟨names, e :: before, key, after, rfl, hkey, hafter⟩
    · by_cases he : e.1.read = .ok s
      · exact .inl ⟨e.2, [], e.1, es, rfl, he, hes⟩
      · exact .inr (List.forall_mem_cons.mpr ⟨he, hes⟩)

theorem LastFor.exists_mem (h : LastFor es s names) : ∃ e ∈ es, e.1.read = .ok s := by
  obtain ⟨before, key, after, rfl, hkey, -⟩ := h
  exact ⟨(key, names), by simp, hkey⟩

theorem mem_keys_readAliases_iff : s ∈ (readAliases es).keys ↔ ∃ e ∈ es, e.1.read = .ok s := by
  rcases exists_lastFor_or_unread es s with ⟨names, hlast⟩ | hunread
  · refine iff_of_true ?_ hlast.exists_mem
    apply Decidable.not_not.mp
    intro hnew
    cases (get?_readAliases_of_lastFor hlast).symm.trans (Table.get?_eq_none_iff.mpr hnew)
  · refine iff_of_false (Table.get?_eq_none_iff.mp (get?_readAliases_of_unread hunread)) ?_
    rintro ⟨e, he, hread⟩
    exact hunread e he hread

theorem forall₂_reports_keyLogs (es : List (SiteKey × List String)) :
    List.Forall₂ Reports (unreadable es) (keyLogs es) := by
  induction es with
  | nil => exact .nil
  | cons e es ih =>
    obtain ⟨key, names⟩ := e
    cases key with
    | site s => exact ih
    | text t =>
      cases hparse : CallSite.parse t with
      | ok s =>
        simpa [unreadable, keyLogs, keyLog?, SiteKey.text?, hparse, Except.isOk, Except.toBool]
          using ih
      | error f =>
        have hreports : Reports t (.keyIgnored t f.reason) :=
          ⟨f.toConfigError, CallSite.checkedParse_of_error hparse, rfl⟩
        simpa [unreadable, keyLogs, keyLog?, SiteKey.text?, hparse, Except.isOk, Except.toBool]
          using And.intro hreports ih

/-- Whatever the alias entries are, a policy is read if its other fields break no rule. The group of
a site has the names of the last entry for it, a site without an entry has no group and is not in
the map, and there is one report for each written key that names no site, in order, with the reason
why it cannot be read. -/
theorem entries_read_last_wins (d : PolicyDraft) (es : List (SiteKey × List String))
    (hname : d.initializer ≠ "") (hdepth : ∀ n ∈ d.depthBound, 0 ≤ n) :
    ∃ logs p, checkedOfEntries d es = (logs, .ok p) ∧
      (∀ s names, LastFor es s names → ∀ n, n ∈ p.aliases.group s ↔ n ∈ names) ∧
      (∀ s, (∀ e ∈ es, e.1.read ≠ .ok s) → p.aliases.group s = .empty) ∧
      (∀ s, s ∈ p.aliases.keys ↔ ∃ e ∈ es, e.1.read = .ok s) ∧
      List.Forall₂ Reports (unreadable es) logs := by
  obtain ⟨p, hp, haliases⟩ := PolicyDraft.exists_toPolicy hname hdepth (readAliases es)
  refine ⟨keyLogs es, p, ?_, ?_, ?_, ?_, forall₂_reports_keyLogs es⟩
  · rw [checkedOfEntries_eq, hp]
  · intro s names hlast n
    rw [haliases, AliasMap.group, get?_readAliases_of_lastFor hlast, Option.getD_some]
    exact NameSet.mem_ofList
  · intro s hunread
    rw [haliases, AliasMap.group, get?_readAliases_of_unread hunread, Option.getD_none]
  · intro s
    rw [haliases]
    exact mem_keys_readAliases_iff

/-- A site and two of its written forms are one key, and what stands between them does not count. -/
theorem last_form_of_site_wins :
    let d : PolicyDraft := { depthBound := some 0 }
    let site : CallSite := ⟨"App", "write", 7⟩
    let es : List (SiteKey × List String) :=
      [(.text "App:write:7", ["Disk"]), (.text "App-write-7", ["Log"]), (.site site, ["Tape"]),
        (.text "App:write:+07", ["Cloud", "Disk"]), (.text "App:write:x", [])]
    d.initializer ≠ "" ∧ (∀ n ∈ d.depthBound, 0 ≤ n) ∧ LastFor es site ["Cloud", "Disk"] ∧
      (∀ e ∈ es, e.1.read ≠ .ok ⟨"App", "write", 8⟩) ∧
      unreadable es = ["App-write-7", "App:write:x"] ∧
      ∃ logs p, checkedOfEntries d es = (logs, .ok p) ∧
        (∀ n, n ∈ p.aliases.group site ↔ n ∈ ["Cloud", "Disk"]) ∧
        p.aliases.group ⟨"App", "write", 8⟩ = .empty ∧ logs.length = 2 := by
  intro d site es
  have hname : d.initializer ≠ "" := by decide
  have hdepth : ∀ n ∈ d.depthBound, 0 ≤ n := by decide +revert
  have hunread : ∀ e ∈ es, e.1.read ≠ .ok ⟨"App", "write", 8⟩ := by decide +revert
  have hkeys : unreadable es = ["App-write-7", "App:write:x"] := by decide +revert
  have hlast : LastFor es site ["Cloud", "Disk"] := by
    refine ⟨es.take 3, .text "App:write:+07", es.drop 4, rfl, ?_, ?_⟩ <;> decide +revert
  obtain ⟨logs, p, hread, hgroup, hempty, -, hlogs⟩ := entries_read_last_wins d es hname hdepth
  refine ⟨hname, hdepth, hlast, hunread, hkeys, logs, p, hread, hgroup site _ hlast,
    hempty _ hunread, ?_⟩
  rw [← hlogs.length_eq, hkeys]
  rfl

end Policy

end CallTrace
