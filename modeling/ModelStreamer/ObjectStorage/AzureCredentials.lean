import Mathlib.Data.List.Induction
import ModelStreamer.Common.ClientMgrSpec

/-!
# Credentials of Azure clients

The constructor of {lit}`AzureClient` and its {lit}`verify_credentials` both merge the environment
with a list of parameters.  The constructor passes over empty values, the other does not.

What the SDK does with the credentials is a parameter of the model.  The streamer passes no null
pointers, so that keys and values are texts here.

Main results:

- Theorem {lit}`get_merged`: the last entry of a key wins.
- Theorem {lit}`merged_eq_effective_iff`: when the two merges agree.
- Theorem {lit}`azure_reuse_iff`: when a client is reused exactly for its own credentials.
-/

namespace ModelStreamer
namespace ObjectStorage

open Common

/-! ## Credentials -/

/-- The parameters that an Azure client knows. -/
inductive AzureKey where
  | accountName
  | accountKey
  | sasToken
  | endpointSuffix
deriving DecidableEq, Repr

/-- The comparisons with the known keys. -/
def azureKey (key : String) : Option AzureKey :=
  if key = "account_name" then some .accountName
  else if key = "account_key" then some .accountKey
  else if key = "sas_token" then some .sasToken
  else if key = "endpoint_suffix" then some .endpointSuffix
  else none

/-- The credentials of a client. -/
structure AzureCredentials where
  accountName : Option String
  accountKey : Option String
  sasToken : Option String
  endpointSuffix : String
deriving DecidableEq, Repr

/-- Overwrite one of the credentials. -/
def AzureCredentials.set (credentials : AzureCredentials) (key : AzureKey) (value : String) :
    AzureCredentials :=
  match key with
  | .accountName => { credentials with accountName := some value }
  | .accountKey => { credentials with accountKey := some value }
  | .sasToken => { credentials with sasToken := some value }
  | .endpointSuffix => { credentials with endpointSuffix := value }

/-- One of the credentials. -/
def AzureCredentials.get (credentials : AzureCredentials) : AzureKey → Option String
  | .accountName => credentials.accountName
  | .accountKey => credentials.accountKey
  | .sasToken => credentials.sasToken
  | .endpointSuffix => some credentials.endpointSuffix

/-- The variables of the environment; one that is not set is {lit}`none`. -/
structure AzureEnv where
  /-- {lit}`AZURE_STORAGE_ACCOUNT_NAME`. -/
  accountName : Option String
  /-- {lit}`AZURE_STORAGE_ACCOUNT_KEY`. -/
  accountKey : Option String
  /-- {lit}`AZURE_STORAGE_SAS_TOKEN`. -/
  sasToken : Option String
  /-- {lit}`AZURE_STORAGE_ENDPOINT_SUFFIX`. -/
  endpointSuffix : Option String
deriving DecidableEq, Repr

/-- A variable that is set to nothing counts as not set. -/
def nonEmpty (setting : Option String) : Option String :=
  setting.filter fun value => value ≠ ""

/-- {lit}`ClientConfiguration`: the credentials in the environment. -/
def AzureEnv.clientConfiguration (env : AzureEnv) : AzureCredentials where
  accountName := nonEmpty env.accountName
  accountKey := nonEmpty env.accountKey
  sasToken := nonEmpty env.sasToken
  endpointSuffix := (nonEmpty env.endpointSuffix).getD "blob.core.windows.net"

/-- {lit}`ObjectConfigParam_t`. -/
structure ConfigParam where
  key : String
  value : String
deriving DecidableEq, Repr

/-- Overwrite the credential that the parameter names, if there is one. -/
def AzureCredentials.override (credentials : AzureCredentials) (param : ConfigParam) :
    AzureCredentials :=
  match azureKey param.key with
  | some key => credentials.set key param.value
  | none => credentials

/-- The loop of {lit}`verify_credentials` over the parameters. -/
def merged (env : AzureEnv) (params : List ConfigParam) : AzureCredentials :=
  params.foldl AzureCredentials.override env.clientConfiguration

/-- The loop of the constructor, which passes over empty values. -/
def effective (env : AzureEnv) (params : List ConfigParam) : AzureCredentials :=
  params.foldl (fun credentials param =>
    if param.value = "" then credentials else credentials.override param) env.clientConfiguration

/-! ## Clients -/

section Clients

-- whether the SDK makes a service client of the credentials
variable (connects : AzureCredentials → Bool) (env : AzureEnv)

/-- The constructor of {lit}`AzureClient`, with the credentials that the client keeps. -/
def azureClient (params : List ConfigParam) : Except ResponseCode AzureCredentials :=
  let credentials := effective env params
  if credentials.accountName = none then .error .invalidParameterError
  else if connects credentials then .ok credentials
  else .error .invalidParameterError

/-- {lit}`AzureClient::verify_credentials`. -/
def verifyCredentials (client : AzureCredentials) (params : List ConfigParam) : Bool :=
  client = merged env params

/-- {lit}`verify_credentials` of a client that was made with these parameters. -/
def verifyMade (made asked : List ConfigParam) : Bool :=
  match azureClient connects env made with
  | .ok client => verifyCredentials env client asked
  | .error _ => false

end Clients

/-! ## The last entry of a key -/

@[simp]
theorem AzureCredentials.get_set (credentials : AzureCredentials) (key other : AzureKey)
    (value : String) :
    (credentials.set key value).get other =
      if other = key then some value else credentials.get other := by
  cases key <;> cases other <;> rfl

/-- Credentials are what their parts are. -/
theorem AzureCredentials.ext_get {a b : AzureCredentials} (h : ∀ key, a.get key = b.get key) :
    a = b := by
  cases a
  cases b
  have hname := h .accountName
  have hkey := h .accountKey
  have htoken := h .sasToken
  have hsuffix := h .endpointSuffix
  simp only [AzureCredentials.get, Option.some.injEq] at hname hkey htoken hsuffix
  rw [hname, hkey, htoken, hsuffix]

/-- The value of the last parameter with a key. -/
def lastValue (key : AzureKey) (params : List ConfigParam) : Option String :=
  (params.reverse.find? fun param => azureKey param.key = some key).map ConfigParam.value

/-- One more parameter hides the ones before it. -/
theorem lastValue_concat (key : AzureKey) (params : List ConfigParam) (param : ConfigParam) :
    lastValue key (params ++ [param]) =
      if azureKey param.key = some key then some param.value else lastValue key params := by
  unfold lastValue
  rw [List.reverse_concat, List.find?_cons]
  by_cases hkey : azureKey param.key = some key
  · simp [hkey]
  · simp [hkey]

/-- The last entry of a key wins over the ones before it and over the environment. -/
theorem get_merged (env : AzureEnv) (params : List ConfigParam) (key : AzureKey) :
    (merged env params).get key =
      (lastValue key params).or (env.clientConfiguration.get key) := by
  induction params using List.reverseRecOn with
  | nil => rfl
  | append_singleton params param ih =>
      have hstep : merged env (params ++ [param]) = (merged env params).override param :=
        List.foldl_concat _ _ _ _
      rw [hstep, lastValue_concat]
      unfold AzureCredentials.override
      cases hparam : azureKey param.key with
      | none => rw [if_neg (by simp), ih]
      | some found =>
          simp only [AzureCredentials.get_set]
          by_cases heq : key = found
          · rw [if_pos heq, if_pos (by rw [heq])]
            rfl
          · rw [if_neg heq, ih, if_neg fun h => heq (Option.some.inj h).symm]

/-- The constructor merges the parameters that are not empty. -/
theorem effective_eq (env : AzureEnv) (params : List ConfigParam) :
    effective env params = merged env (params.filter fun param => param.value ≠ "") := by
  unfold effective merged
  rw [List.foldl_filter]
  congr 1
  funext credentials param
  by_cases hempty : param.value = ""
  · simp [hempty]
  · simp [hempty]

/-- A last entry that is not empty is the last one that is not empty. -/
theorem lastValue_filter {key : AzureKey} {params : List ConfigParam}
    (h : lastValue key params ≠ some "") :
    lastValue key (params.filter fun param => param.value ≠ "") = lastValue key params := by
  induction params using List.reverseRecOn with
  | nil => rfl
  | append_singleton params param ih =>
      rw [lastValue_concat] at h
      rw [List.filter_append, lastValue_concat]
      by_cases hkey : azureKey param.key = some key
      · rw [if_pos hkey] at h
        have hvalue : param.value ≠ "" := fun hempty => h (by rw [hempty])
        rw [if_pos hkey, List.filter_singleton, decide_eq_true hvalue, cond_true,
          lastValue_concat, if_pos hkey]
      · rw [if_neg hkey] at h ⊢
        rw [List.filter_singleton]
        by_cases hvalue : param.value ≠ ""
        · rw [decide_eq_true hvalue, cond_true, lastValue_concat, if_neg hkey, ih h]
        · rw [decide_eq_false hvalue, cond_false, List.append_nil, ih h]

/-- The environment has no empty credentials. -/
theorem get_clientConfiguration_ne (env : AzureEnv) (key : AzureKey) :
    env.clientConfiguration.get key ≠ some "" := by
  have hsetting : ∀ setting, nonEmpty setting ≠ some "" := by
    intro setting h
    have hne := (Option.filter_eq_some_iff.1 h).2
    simp at hne
  cases key with
  | accountName => exact hsetting env.accountName
  | accountKey => exact hsetting env.accountKey
  | sasToken => exact hsetting env.sasToken
  | endpointSuffix =>
      intro h
      simp only [AzureCredentials.get, AzureEnv.clientConfiguration, Option.some.injEq] at h
      cases hsuffix : nonEmpty env.endpointSuffix with
      | none =>
          rw [hsuffix] at h
          exact absurd h (by decide)
      | some suffix =>
          rw [hsuffix] at h
          apply hsetting env.endpointSuffix
          rw [hsuffix]
          exact congrArg some h

/-- A client has no empty credentials. -/
theorem get_effective_ne (env : AzureEnv) (params : List ConfigParam) (key : AzureKey) :
    (effective env params).get key ≠ some "" := by
  rw [effective_eq, get_merged]
  cases hlast : lastValue key (params.filter fun param => param.value ≠ "") with
  | none => exact get_clientConfiguration_ne env key
  | some value =>
      intro hempty
      cases hempty
      obtain ⟨param, hfind, hvalue⟩ := Option.map_eq_some_iff.1 hlast
      have hmem := List.mem_reverse.1 (List.mem_of_find?_eq_some hfind)
      have hne := (List.mem_filter.1 hmem).2
      rw [hvalue] at hne
      simp at hne

/-- The two merges agree exactly when no key ends with an empty value. -/
theorem merged_eq_effective_iff (env : AzureEnv) (params : List ConfigParam) :
    merged env params = effective env params ↔ ∀ key, lastValue key params ≠ some "" := by
  constructor
  · intro heq key hlast
    apply get_effective_ne env params key
    rw [← heq, get_merged, hlast]
    rfl
  · intro hlast
    apply AzureCredentials.ext_get
    intro key
    rw [effective_eq, get_merged, get_merged, lastValue_filter (hlast key)]

/-! ## Reuse -/

/-- A pop takes an unused client that verifies, and gives up only when there is none. -/
theorem popUnused_exact {κ : Type*} (verify : κ → κ → Bool) (config : κ) (unused : List Nat)
    {clients : List (Client κ)} {found : Option (Client κ)} {mgr : ClientMgr κ}
    (hnodup : (clients.map Client.address).Nodup)
    (hpop : ClientMgr.popUnused verify config unused clients = .ok (found, mgr)) :
    (∀ client ∈ found, client ∈ clients ∧ client.address ∈ unused ∧
        verify client.config config = true) ∧
      (found = none → ∀ client ∈ clients, client.address ∈ unused →
        verify client.config config = false) := by
  induction unused generalizing clients with
  | nil =>
      cases hpop
      refine ⟨?_, fun _ _ _ hmem => absurd hmem List.not_mem_nil⟩
      intro client hclient
      cases hclient
  | cons address unused ih =>
      unfold ClientMgr.popUnused at hpop
      cases hfind : ClientMgr.find clients address with
      | none =>
          rw [hfind] at hpop
          cases hpop
      | some first =>
          have hfirst := List.mem_of_find?_eq_some hfind
          have haddress : first.address = address := by
            have hsome := List.find?_some hfind
            simpa using hsome
          rw [hfind] at hpop
          simp only at hpop
          by_cases hverify : verify first.config config = true
          · rw [if_pos hverify] at hpop
            cases hpop
            constructor
            · rintro client ⟨⟩
              exact ⟨hfirst, haddress ▸ List.mem_cons_self, hverify⟩
            · intro hnone
              cases hnone
          · rw [if_neg hverify] at hpop
            have hsublist : (ClientMgr.erase clients address).Sublist clients :=
              List.filter_sublist
            obtain ⟨hsome, hnone⟩ := ih (hnodup.sublist (hsublist.map Client.address)) hpop
            constructor
            · intro client hclient
              obtain ⟨hmem, hunused, hmatch⟩ := hsome client hclient
              exact ⟨hsublist.subset hmem, List.mem_cons_of_mem _ hunused, hmatch⟩
            · intro hempty client hclient hunused
              by_cases heq : client.address = address
              · -- this is the client that was not taken
                have hsame := List.inj_on_of_nodup_map hnodup hclient hfirst
                  (heq.trans haddress.symm)
                rw [hsame]
                exact Bool.eq_false_iff.2 hverify
              · apply hnone hempty client
                · exact List.mem_filter.2 ⟨hclient, by simpa using heq⟩
                · exact (List.mem_cons.1 hunused).resolve_left heq

section Reuse

variable (connects : AzureCredentials → Bool) (env : AzureEnv)

/-- A client can be made with the parameters. -/
def Constructs (params : List ConfigParam) : Prop :=
  (effective env params).accountName ≠ none ∧ connects (effective env params) = true

variable {connects env} in
/-- A client keeps the credentials that its constructor merged. -/
theorem azureClient_ok_iff {params : List ConfigParam} {client : AzureCredentials} :
    azureClient connects env params = .ok client ↔
      Constructs connects env params ∧ client = effective env params := by
  unfold azureClient Constructs
  by_cases hname : (effective env params).accountName = none
  · simp [hname]
  · by_cases hconnects : connects (effective env params) = true
    · simp [hname, hconnects, eq_comm]
    · simp [hname, hconnects]

/-- A table of clients that were all made by the constructor. -/
structure AzureClients (mgr : ClientMgr (List ConfigParam)) : Prop where
  nodup : (mgr.clients.map Client.address).Nodup
  unused : ∃ held, (mgr.clients.map Client.address).Perm (mgr.unused ++ held)
  made : ∀ client ∈ mgr.clients, Constructs connects env client.config

/-- Clients are reused for the parameters exactly when they have the same credentials. -/
structure ReusesExactly (params : List ConfigParam) : Prop where
  /-- A client is verified with the parameters that it was made with. -/
  own : ∀ client, azureClient connects env params = .ok client →
    verifyCredentials env client params = true
  /-- A client that was made with others is verified if it has the same credentials. -/
  same : ∀ others client, azureClient connects env others = .ok client →
    (verifyCredentials env client params = true ↔ client = effective env params)
  /-- {lit}`ClientMgr::pop` reuses such a client, and makes one only if none is unused. -/
  pop : ∀ mgr : ClientMgr (List ConfigParam), AzureClients connects env mgr →
    ∃ found after, mgr.popReuse (verifyMade connects env) params = .ok (found, after) ∧
      (∀ client ∈ found, client ∈ mgr.clients ∧ client.address ∈ mgr.unused ∧
        effective env client.config = effective env params) ∧
      (found = none → ∀ client ∈ mgr.clients, client.address ∈ mgr.unused →
        effective env client.config ≠ effective env params)

variable {connects env}

/-- What {lit}`verify_credentials` answers for a client of other parameters. -/
theorem verifyMade_iff {made asked : List ConfigParam} (hmade : Constructs connects env made) :
    verifyMade connects env made asked = true ↔ effective env made = merged env asked := by
  unfold verifyMade
  rw [azureClient_ok_iff.2 ⟨hmade, rfl⟩]
  exact decide_eq_true_iff

/-- A client equals one that cannot be made with an empty value only if neither is there. -/
theorem verified_iff {others params : List ConfigParam} (hothers : Constructs connects env others)
    (h : Constructs connects env params → ∀ key, lastValue key params ≠ some "") :
    effective env others = merged env params ↔ effective env others = effective env params := by
  by_cases hlast : ∀ key, lastValue key params ≠ some ""
  · rw [(merged_eq_effective_iff env params).2 hlast]
  · constructor
    · -- the merge with an empty value is not what any client has
      intro heq
      exfalso
      obtain ⟨key, hkey⟩ := not_forall.1 hlast
      apply get_effective_ne env others key
      rw [heq, get_merged, not_not.1 hkey]
      rfl
    · intro heq
      have hmade : Constructs connects env params := by
        unfold Constructs at hothers ⊢
        rwa [← heq]
      exact absurd (h hmade) hlast

/--
Clients are reused exactly for their own credentials unless a client can be made with the
parameters although a known key has an empty value last.
-/
theorem azure_reuse_iff (connects : AzureCredentials → Bool) (env : AzureEnv)
    (params : List ConfigParam) :
    ReusesExactly connects env params ↔
      ((∀ key, lastValue key params ≠ some "") ∨ ¬ Constructs connects env params) := by
  constructor
  · intro h
    by_cases hmade : Constructs connects env params
    · left
      have hok := azureClient_ok_iff.2 ⟨hmade, rfl⟩
      have hverified := h.own _ hok
      exact (merged_eq_effective_iff env params).1 (of_decide_eq_true hverified).symm
    · exact .inr hmade
  · intro h
    have hlast : Constructs connects env params → ∀ key, lastValue key params ≠ some "" :=
      fun hmade => h.resolve_right (not_not.2 hmade)
    refine ⟨fun client hclient => ?_, fun others client hclient => ?_, fun mgr hmgr => ?_⟩
    · obtain ⟨hmade, rfl⟩ := azureClient_ok_iff.1 hclient
      exact decide_eq_true ((verified_iff hmade hlast).2 rfl)
    · obtain ⟨hmade, rfl⟩ := azureClient_ok_iff.1 hclient
      exact decide_eq_true_iff.trans (verified_iff hmade hlast)
    · obtain ⟨held, hperm⟩ := hmgr.unused
      obtain ⟨found, after, hpop, -⟩ := ClientMgr.popUnused_spec (verifyMade connects env) params
        mgr.unused hmgr.nodup hperm
      obtain ⟨hsome, hnone⟩ := popUnused_exact _ params mgr.unused hmgr.nodup hpop
      have hmatch : ∀ client ∈ mgr.clients,
          (verifyMade connects env client.config params = true ↔
            effective env client.config = effective env params) := fun client hclient =>
        (verifyMade_iff (hmgr.made client hclient)).trans
          (verified_iff (hmgr.made client hclient) hlast)
      refine ⟨found, after, hpop, fun client hclient => ?_, fun hempty client hclient hunused => ?_⟩
      · obtain ⟨hmem, hunused, hverify⟩ := hsome client hclient
        exact ⟨hmem, hunused, (hmatch client hmem).1 hverify⟩
      · intro heq
        have hfalse := hnone hempty client hclient hunused
        rw [(hmatch client hclient).2 heq] at hfalse
        cases hfalse

end Reuse

/--
The account is in the environment, and the parameters name it with an empty value: the client
that was made with them is not verified with them.
-/
theorem azure_reuse_emptyName :
    azureClient (fun _ => true) ⟨some "acct", none, none, none⟩ [⟨"account_name", ""⟩] =
        .ok ⟨some "acct", none, none, "blob.core.windows.net"⟩ ∧
      verifyCredentials ⟨some "acct", none, none, none⟩
        ⟨some "acct", none, none, "blob.core.windows.net"⟩ [⟨"account_name", ""⟩] = false ∧
      ¬ ReusesExactly (fun _ => true) ⟨some "acct", none, none, none⟩ [⟨"account_name", ""⟩] := by
  have hmade : azureClient (fun _ => true) ⟨some "acct", none, none, none⟩ [⟨"account_name", ""⟩] =
      .ok ⟨some "acct", none, none, "blob.core.windows.net"⟩ := by decide +kernel
  have hnot : verifyCredentials ⟨some "acct", none, none, none⟩
      ⟨some "acct", none, none, "blob.core.windows.net"⟩ [⟨"account_name", ""⟩] = false := by
    decide +kernel
  refine ⟨hmade, hnot, fun h => ?_⟩
  rw [h.own _ hmade] at hnot
  cases hnot

end ObjectStorage
end ModelStreamer
