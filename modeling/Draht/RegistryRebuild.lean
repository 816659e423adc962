import Draht.LastWriter
import Draht.ModelRegistry

/-!
# The registry and a rebuilt registry

Between two rebuilds the tables are those of all registrations that were applied since; a rebuild
applies the registrations in force, in the order in which their providers were first registered.
Both give the same as far as what was set last is what the rebuild sets last.
-/

namespace Draht.ModelRegistry
open List Option

variable {σ : Type} (world : World σ)

abbrev Registration (σ : Type) := String × ProviderConfigInput σ

def applyAll (registrations : List (Registration σ)) : Tables σ :=
  registrations.foldl (fun tables entry => applyProviderConfig world tables entry.1 entry.2)
    (created world)

/-- The registrations in force and those applied since the tables were built. -/
structure History (σ : Type) where
  registered : Record (ProviderConfigInput σ)
  applied : List (Registration σ)

def isValid (providerName : String) (config : ProviderConfigInput σ) : Bool :=
  (validateProviderConfig providerName config).toBool

namespace History

def rebuilt (registered : Record (ProviderConfigInput σ)) : History σ :=
  ⟨registered, registered.entries⟩

def next (h : History σ) : Call σ → History σ
  | .registerProvider providerName config =>
    if isValid providerName config then
      ⟨h.registered.set providerName config, h.applied ++ [(providerName, config)]⟩
    else h
  | .unregisterProvider providerName =>
    if h.registered.has providerName then rebuilt (h.registered.delete providerName) else h
  | .refresh => rebuilt h.registered

end History

def history (calls : List (Call σ)) : History σ := calls.foldl History.next ⟨.empty, []⟩

theorem resetApiProviders_eq (tables : Tables σ) :
    resetApiProviders world tables =
      { tables with
        apiProviders := world.builtInApiProviders.foldl
          (fun providers provider => providers.set provider.api (provider, none)) .empty } := by
  rw [resetApiProviders]
  generalize (OrderedMap.empty : Record (ApiProvider σ × Option String)) = providers
  induction world.builtInApiProviders generalizing providers with
  | nil => rfl
  | cons provider rest ih => exact ih (providers.set provider.api (provider, none))

theorem resetOAuthProviders_eq (tables : Tables σ) :
    resetOAuthProviders world tables =
      { tables with
        oauthProviders := world.builtInOAuthProviders.foldl
          (fun providers entry => providers.set entry.1 entry.2) .empty } := by
  rw [resetOAuthProviders]
  generalize (OrderedMap.empty : Record OAuthProvider) = providers
  induction world.builtInOAuthProviders generalizing providers with
  | nil => rfl
  | cons entry rest ih => exact ih (providers.set entry.1 entry.2)

theorem refresh_eq (registry : Registry σ) :
    refresh world registry =
      ⟨applyAll world registry.registeredProviders.entries, registry.registeredProviders⟩ := by
  have hcreated : loadModels world (resetOAuthProviders world (resetApiProviders world
      { registry.tables with requests := ⟨.empty, .empty⟩, loadError := none })) =
        created world := by
    rw [created, resetApiProviders_eq, resetApiProviders_eq, resetOAuthProviders_eq,
      resetOAuthProviders_eq]
    rfl
  rw [refresh, hcreated]
  rfl

theorem run_append (calls : List (Call σ)) (c : Call σ) :
    run world (calls ++ [c]) = call world (run world calls) c := by
  rw [run, foldl_append]
  rfl

theorem history_append (calls : List (Call σ)) (c : Call σ) :
    history (calls ++ [c]) = (history calls).next c := by
  rw [history, foldl_append]
  rfl

theorem run_eq (calls : List (Call σ)) :
    run world calls = ⟨applyAll world (history calls).applied, (history calls).registered⟩ := by
  induction calls using reverseRecOn with
  | nil => rfl
  | append_singleton calls c ih =>
    rw [run_append, history_append, ih]
    cases c with
    | registerProvider providerName config =>
      rw [call, registerProvider, History.next, isValid]
      cases validateProviderConfig providerName config with
      | error message => rfl
      | ok valid =>
        simp [Except.toBool, applyAll]
    | unregisterProvider providerName =>
      rw [call, unregisterProvider, History.next]
      cases hhas : (history calls).registered.has providerName with
      | false => rfl
      | true => exact refresh_eq world _
    | refresh => exact refresh_eq world _

def hasModels (config : ProviderConfigInput σ) : Bool := 0 < (config.models.getD []).length

theorem foldl_newModels (providerName : String) (config : ProviderConfigInput σ)
    (models : List ModelInput) (tables : Tables σ) :
    models.foldl (fun tables modelDef =>
        { tables with
          requests := storeModelHeaders tables.requests providerName modelDef.id modelDef.headers
          models := tables.models ++ [newModel providerName config modelDef] }) tables =
      { tables with
        requests := models.foldl (fun requests modelDef =>
          storeModelHeaders requests providerName modelDef.id modelDef.headers) tables.requests
        models := tables.models ++ models.map (newModel providerName config) } := by
  induction models generalizing tables with
  | nil => simp
  | cons modelDef models ih =>
    rw [foldl_cons, ih, foldl_cons, map_cons, append_assoc, singleton_append]

/-- The models, with the hook of the registration if there is one. -/
def hooked (providerName : String) (config : ProviderConfigInput σ) (models : List Model) :
    List Model :=
  match config.oauth with
  | none => models
  | some oauth => modifyModels world providerName oauth models

theorem applyProviderConfig_eq (tables : Tables σ) (providerName : String)
    (config : ProviderConfigInput σ) :
    applyProviderConfig world tables providerName config =
      { tables with
        models :=
          if hasModels config then
            hooked world providerName config (tables.models.filter (·.provider ≠ providerName) ++
              (config.models.getD []).map (newModel providerName config))
          else if truthy config.baseUrl || config.headers.isSome then
            tables.models.map (overrideBaseUrl providerName config)
          else tables.models
        requests :=
          if hasModels config then
            (config.models.getD []).foldl (fun requests modelDef =>
                storeModelHeaders requests providerName modelDef.id modelDef.headers)
              (storeProviderRequestConfig tables.requests providerName
                ⟨config.apiKey, config.headers, config.authHeader⟩)
          else storeProviderRequestConfig tables.requests providerName
            ⟨config.apiKey, config.headers, config.authHeader⟩
        oauthProviders :=
          match config.oauth with
          | none => tables.oauthProviders
          | some oauth => tables.oauthProviders.set providerName oauth
        apiProviders :=
          match config.streamSimple with
          | none => tables.apiProviders
          | some streamSimple => tables.apiProviders.set (config.api.getD "")
              (⟨config.api.getD "", streamSimple, streamSimple⟩,
                some s!"provider:{providerName}") } := by
  rw [applyProviderConfig]
  have hmodels : (0 < (config.models.getD []).length) ↔ hasModels config = true := by
    simp [hasModels]
  simp only [hmodels, replaceModels, foldl_newModels, hooked]
  cases config.oauth with
  | none =>
    cases config.streamSimple with
    | none => split_ifs <;> rfl
    | some streamSimple => split_ifs <;> rfl
  | some oauth =>
    cases config.streamSimple with
    | none => split_ifs <;> rfl
    | some streamSimple => split_ifs <;> rfl

def apiWritten (entry : Registration σ) (api : String) :
    Option (Option (ApiProvider σ × Option String)) :=
  entry.2.streamSimple.bind fun streamSimple =>
    if entry.2.api.getD "" = api then
      some (some (⟨api, streamSimple, streamSimple⟩, some s!"provider:{entry.1}"))
    else none

def oauthWritten (entry : Registration σ) (providerName : String) :
    Option (Option OAuthProvider) :=
  if entry.1 = providerName then entry.2.oauth.map some else none

/-- A registration without key, headers and `authHeader` leaves the request config. -/
def requestWritten (entry : Registration σ) (providerName : String) :
    Option (Option ProviderRequestConfig) :=
  if entry.1 = providerName && (truthy entry.2.apiKey || entry.2.headers.isSome ||
      entry.2.authHeader == some true) then
    some (some ⟨entry.2.apiKey, entry.2.headers, entry.2.authHeader⟩)
  else none

/-- The headers of one model, which are deleted if it has none. -/
def modelHeadersWritten (providerName : String) (modelDef : ModelInput) (key : String) :
    Option (Option (Record String)) :=
  if getModelRequestKey providerName modelDef.id = key then
    some (modelDef.headers.filter (·.size ≠ 0))
  else none

def headersWritten (entry : Registration σ) (key : String) : Option (Option (Record String)) :=
  (lastWriter (modelHeadersWritten entry.1) key (entry.2.models.getD [])).bind
    (modelHeadersWritten entry.1 · key)

section

variable (tables : Tables σ) (entry : Registration σ)

theorem apiProviders_apply (api : String) :
    (applyProviderConfig world tables entry.1 entry.2).apiProviders.get api =
      (apiWritten entry api).getD (tables.apiProviders.get api) := by
  rw [applyProviderConfig_eq, apiWritten]
  cases entry.2.streamSimple with
  | none => rfl
  | some streamSimple =>
    by_cases happi : entry.2.api.getD "" = api
    · simp [happi]
    · simp [happi]

theorem oauthProviders_apply (providerName : String) :
    (applyProviderConfig world tables entry.1 entry.2).oauthProviders.get providerName =
      (oauthWritten entry providerName).getD (tables.oauthProviders.get providerName) := by
  rw [applyProviderConfig_eq, oauthWritten]
  cases entry.2.oauth with
  | none => simp
  | some oauth =>
    by_cases hname : entry.1 = providerName
    · simp [hname]
    · simp [hname]

theorem foldl_storeModelHeaders (providerName : String) (models : List ModelInput)
    (requests : RequestTables) :
    (models.foldl (fun requests modelDef =>
        storeModelHeaders requests providerName modelDef.id modelDef.headers)
      requests).providerRequestConfigs = requests.providerRequestConfigs := by
  induction models generalizing requests with
  | nil => rfl
  | cons modelDef models ih => exact ih _

theorem requestConfigs_apply (providerName : String) :
    (applyProviderConfig world tables entry.1 entry.2).requests.providerRequestConfigs.get
        providerName =
      (requestWritten entry providerName).getD
        (tables.requests.providerRequestConfigs.get providerName) := by
  have hstored : (applyProviderConfig world tables entry.1
      entry.2).requests.providerRequestConfigs =
      (storeProviderRequestConfig tables.requests entry.1
        ⟨entry.2.apiKey, entry.2.headers, entry.2.authHeader⟩).providerRequestConfigs := by
    rw [applyProviderConfig_eq]
    simp only
    split_ifs
    · exact foldl_storeModelHeaders _ _ _
    · rfl
  rw [hstored, storeProviderRequestConfig, requestWritten]
  have hset : (!(!truthy entry.2.apiKey && entry.2.headers.isNone &&
      entry.2.authHeader != some true)) =
      (truthy entry.2.apiKey || entry.2.headers.isSome || entry.2.authHeader == some true) := by
    cases truthy entry.2.apiKey <;> cases entry.2.headers <;> simp [bne]
  rw [← hset]
  cases !truthy entry.2.apiKey && entry.2.headers.isNone && entry.2.authHeader != some true with
  | true => simp
  | false =>
    by_cases hname : entry.1 = providerName
    · simp [hname]
    · simp [hname]

theorem modelHeaders_store (providerName : String) (requests : RequestTables)
    (modelDef : ModelInput) (key : String) :
    (storeModelHeaders requests providerName modelDef.id
        modelDef.headers).modelRequestHeaders.get key =
      (modelHeadersWritten providerName modelDef key).getD
        (requests.modelRequestHeaders.get key) := by
  simp only [storeModelHeaders, modelHeadersWritten]
  cases modelDef.headers with
  | none =>
    by_cases hkey : getModelRequestKey providerName modelDef.id = key
    · simp [hkey]
    · simp [hkey]
  | some headers =>
    by_cases hsize : headers.size = 0
    · by_cases hkey : getModelRequestKey providerName modelDef.id = key
      · simp [hkey, hsize, Option.filter]
      · simp [hkey, hsize]
    · by_cases hkey : getModelRequestKey providerName modelDef.id = key
      · simp [hkey, hsize, Option.filter]
      · simp [hkey, hsize]

theorem modelHeaders_apply (key : String) :
    (applyProviderConfig world tables entry.1 entry.2).requests.modelRequestHeaders.get key =
      (headersWritten entry key).getD (tables.requests.modelRequestHeaders.get key) := by
  have hstored : (storeProviderRequestConfig tables.requests entry.1
      ⟨entry.2.apiKey, entry.2.headers, entry.2.authHeader⟩).modelRequestHeaders =
      tables.requests.modelRequestHeaders := by
    rw [storeProviderRequestConfig]
    split_ifs <;> rfl
  have hread := read_foldl
    (fun (requests : RequestTables) key => requests.modelRequestHeaders.get key)
    (modelHeaders_store entry.1)
  rw [headersWritten, ← hstored, ← hread, applyProviderConfig_eq]
  cases hmodels : entry.2.models.getD [] with
  | nil => simp [hasModels, hmodels]
  | cons modelDef models => simp [hasModels, hmodels]

end

def ownModels (providerName : String) (models : List Model) : List Model :=
  models.filter (·.provider = providerName)

/-- The hook of the registration changes only the models of its provider, and changes them by what
they are. -/
def HookIsLocal (entry : Registration σ) : Prop :=
  ∀ oauth modify, entry.2.oauth = some oauth → oauth.modifyModels = some modify →
    ∀ cred models,
      (∀ provider, provider ≠ entry.1 →
        ownModels provider (modify models cred) = ownModels provider models) ∧
      ∀ models', ownModels entry.1 models = ownModels entry.1 models' →
        ownModels entry.1 (modify models cred) = ownModels entry.1 (modify models' cred)

def replacesModels (providerName : String) (entry : Registration σ) : Bool :=
  entry.1 = providerName && hasModels entry.2

/-- The registration has no models and an address for those that are there. -/
def setsBaseUrl (providerName : String) (entry : Registration σ) : Bool :=
  entry.1 = providerName && !hasModels entry.2 && entry.2.baseUrl.isSome &&
    (truthy entry.2.baseUrl || entry.2.headers.isSome)

def modelsAfter (providerName : String) (entry : Registration σ) (own : List Model) :
    List Model :=
  if replacesModels providerName entry then
    ownModels providerName (hooked world providerName entry.2
      ((entry.2.models.getD []).map (newModel providerName entry.2)))
  else if setsBaseUrl providerName entry then own.map (overrideBaseUrl providerName entry.2)
  else own

variable {model : Model} {providerName : String} {registry : Registry σ}

theorem HookIsLocal.other {entry : Registration σ} (h : HookIsLocal entry)
    (hname : providerName ≠ entry.1) (models : List Model) :
    ownModels providerName (hooked world entry.1 entry.2 models) =
      ownModels providerName models := by
  rw [hooked]
  cases hoauth : entry.2.oauth with
  | none => rfl
  | some oauth =>
    simp only [modifyModels]
    cases hmodify : oauth.modifyModels with
    | none => simp
    | some modify =>
      split
      · next cred modify' _ heq =>
          cases heq
          exact (h oauth modify hoauth hmodify cred models).1 providerName hname
      · rfl

theorem HookIsLocal.own {entry : Registration σ} (h : HookIsLocal entry)
    {models models' : List Model} (hown : ownModels entry.1 models = ownModels entry.1 models') :
    ownModels entry.1 (hooked world entry.1 entry.2 models) =
      ownModels entry.1 (hooked world entry.1 entry.2 models') := by
  rw [hooked, hooked]
  cases hoauth : entry.2.oauth with
  | none => exact hown
  | some oauth =>
    simp only [modifyModels]
    cases hmodify : oauth.modifyModels with
    | none => simpa using hown
    | some modify =>
      split
      · next cred modify' _ heq =>
          cases heq
          exact (h oauth modify hoauth hmodify cred models).2 models' hown
      · exact hown

theorem ownModels_map_override (providerName : String) (entry : Registration σ)
    (models : List Model) :
    ownModels providerName (models.map (overrideBaseUrl entry.1 entry.2)) =
      (ownModels providerName models).map (overrideBaseUrl entry.1 entry.2) := by
  rw [ownModels, List.filter_map, ownModels]
  congr 2
  funext m
  simp only [Function.comp_apply, overrideBaseUrl]
  split_ifs <;> rfl

theorem map_override_other {entry : Registration σ} (hname : providerName ≠ entry.1)
    (models : List Model) :
    (ownModels providerName models).map (overrideBaseUrl entry.1 entry.2) =
      ownModels providerName models := by
  refine (map_congr_left ?_).trans (map_id _)
  intro m hm
  have hprovider : m.provider = providerName := by simpa using (mem_filter.mp hm).2
  rw [overrideBaseUrl, hprovider, if_pos hname]
  rfl

theorem map_override_none {entry : Registration σ} (hnone : entry.2.baseUrl = none)
    (models : List Model) : models.map (overrideBaseUrl entry.1 entry.2) = models := by
  refine (map_congr_left ?_).trans (map_id _)
  intro m _
  rw [overrideBaseUrl, hnone]
  split_ifs <;> rfl

theorem ownModels_newModels (providerName : String) (entry : Registration σ) :
    ownModels providerName ((entry.2.models.getD []).map (newModel entry.1 entry.2)) =
      if entry.1 = providerName then (entry.2.models.getD []).map (newModel entry.1 entry.2)
      else [] := by
  rw [ownModels]
  split_ifs with hname
  · rw [filter_eq_self]
    intro m hm
    obtain ⟨modelDef, _, rfl⟩ := mem_map.mp hm
    exact decide_eq_true hname
  · rw [filter_eq_nil_iff]
    intro m hm
    obtain ⟨modelDef, _, rfl⟩ := mem_map.mp hm
    exact fun heq => hname (of_decide_eq_true heq)

theorem ownModels_replaced (providerName : String) (entry : Registration σ)
    (models : List Model) :
    ownModels providerName (models.filter (·.provider ≠ entry.1) ++
        (entry.2.models.getD []).map (newModel entry.1 entry.2)) =
      if entry.1 = providerName then (entry.2.models.getD []).map (newModel entry.1 entry.2)
      else ownModels providerName models := by
  rw [ownModels, filter_append, ← ownModels, ← ownModels, ownModels_newModels, ownModels,
    List.filter_filter]
  split_ifs with hname
  · subst hname
    simp
  · rw [append_nil, ownModels]
    apply filter_congr
    intro m _
    by_cases hprovider : m.provider = providerName
    · simp [hprovider, Ne.symm hname]
    · simp [hprovider]

theorem ownModels_apply {entry : Registration σ} (h : HookIsLocal entry) (tables : Tables σ)
    (providerName : String) :
    ownModels providerName (applyProviderConfig world tables entry.1 entry.2).models =
      modelsAfter world providerName entry (ownModels providerName tables.models) := by
  rw [applyProviderConfig_eq, modelsAfter, replacesModels, setsBaseUrl]
  by_cases hname : entry.1 = providerName
  · subst hname
    simp only [decide_true, Bool.true_and]
    cases hasModels entry.2 with
    | true =>
      apply h.own
      rw [ownModels_replaced, ownModels_newModels, if_pos rfl, if_pos rfl]
    | false =>
      cases hbaseUrl : entry.2.baseUrl with
      | none =>
        simp only [map_override_none hbaseUrl]
        simp
      | some baseUrl =>
        cases truthy (some baseUrl) || entry.2.headers.isSome with
        | true => exact ownModels_map_override _ _ _
        | false => rfl
  · have hother : providerName ≠ entry.1 := Ne.symm hname
    simp only [hname, decide_false, Bool.false_and, Bool.false_eq_true, if_false]
    split_ifs
    · rw [h.other world hother, ownModels_replaced, if_neg hname]
    · rw [ownModels_map_override, map_override_other hother]
    · rfl

theorem absorbs_modelsAfter (providerName : String) :
    Absorbs (modelsAfter (σ := σ) world providerName) (replacesModels providerName)
      (setsBaseUrl providerName) where
  replace entry hreplaces own own' := by
    rw [modelsAfter, modelsAfter, if_pos hreplaces, if_pos hreplaces]
  edit entry entry' hedits hedits' own := by
    have hkeeps : ∀ entry : Registration σ, setsBaseUrl providerName entry = true →
        replacesModels providerName entry = false := by
      intro entry hsets
      simp only [setsBaseUrl, Bool.and_eq_true, Bool.not_eq_true'] at hsets
      rw [replacesModels, hsets.1.1.2, Bool.and_false]
    have hsome : entry'.2.baseUrl.isSome = true := by
      simp only [setsBaseUrl, Bool.and_eq_true] at hedits'
      exact hedits'.1.2
    rw [modelsAfter, modelsAfter, modelsAfter, hkeeps entry hedits, hkeeps entry' hedits', hedits,
      hedits']
    simp only [Bool.false_eq_true, if_false, if_true, List.map_map]
    congr 1
    funext m
    obtain ⟨baseUrl, hbaseUrl⟩ := isSome_iff_exists.mp hsome
    simp only [Function.comp_apply, overrideBaseUrl, hbaseUrl]
    split_ifs <;> simp_all
  other entry hreplaces hedits own := by
    rw [modelsAfter, hreplaces, hedits]
    rfl

theorem ownModels_applyAll {registrations : List (Registration σ)}
    (hlocal : ∀ entry ∈ registrations, HookIsLocal entry) (providerName : String) :
    ownModels providerName (applyAll world registrations).models =
      registrations.foldl (fun own entry => modelsAfter world providerName entry own)
        (ownModels providerName (created world).models) := by
  rw [applyAll]
  generalize created world = tables
  induction registrations generalizing tables with
  | nil => rfl
  | cons entry registrations ih =>
    rw [foldl_cons, foldl_cons,
      ih (fun entry' h => hlocal entry' (mem_cons_of_mem _ h)),
      ownModels_apply world (hlocal entry mem_cons_self)]

theorem find_eq (registry : Registry σ) (provider modelId : String) :
    find registry provider modelId =
      (ownModels provider registry.tables.models).find? (·.id = modelId) := by
  rw [find, ownModels, find?_filter]
  congr 1
  funext m
  simp

theorem find_spec {provider modelId : String} (h : find registry provider modelId = some model) :
    model.provider = provider ∧ model.id = modelId := by
  have hfound := find?_some h
  simpa using hfound

theorem getApiKeyAndHeaders_congr {registry' : Registry σ}
    (hoauth : registry.tables.oauthProviders.get model.provider =
      registry'.tables.oauthProviders.get model.provider)
    (hconfig : registry.tables.requests.providerRequestConfigs.get model.provider =
      registry'.tables.requests.providerRequestConfigs.get model.provider)
    (hheaders : registry.tables.requests.modelRequestHeaders.get
        (getModelRequestKey model.provider model.id) =
      registry'.tables.requests.modelRequestHeaders.get
        (getModelRequestKey model.provider model.id)) :
    getApiKeyAndHeaders world registry model = getApiKeyAndHeaders world registry' model := by
  have hkey : getApiKey world registry model.provider =
      getApiKey world registry' model.provider := by
    rw [getApiKey, getApiKey, hoauth]
  rw [getApiKeyAndHeaders, getApiKeyAndHeaders, hkey, hconfig, hheaders]

/-- For every provider and id the model, for every model found its key and headers, and for every
API its stream functions. -/
structure SameObserved (registry registry' : Registry σ) : Prop where
  find : ∀ provider modelId, find registry provider modelId = find registry' provider modelId
  auth : ∀ provider modelId model, ModelRegistry.find registry provider modelId = some model →
    getApiKeyAndHeaders world registry model = getApiKeyAndHeaders world registry' model
  api : ∀ api, getApiProvider registry api = getApiProvider registry' api

/-- Of the registrations that were applied since the last rebuild and set something that is
observed, the last is also the last among the registrations in force that set it. -/
structure LastSetStands (calls : List (Call σ)) : Prop where
  streams : ∀ api, lastWriter apiWritten api (history calls).applied =
    lastWriter apiWritten api (history calls).registered.entries
  models : ∀ provider, lastBy (replacesModels provider) (history calls).applied =
    lastBy (replacesModels provider) (history calls).registered.entries
  baseUrls : ∀ provider,
    lastBy (fun entry => replacesModels provider entry || setsBaseUrl provider entry)
        (history calls).applied =
      lastBy (fun entry => replacesModels provider entry || setsBaseUrl provider entry)
        (history calls).registered.entries
  requests : ∀ provider modelId model, find (run world calls) provider modelId = some model →
    lastWriter requestWritten provider (history calls).applied =
      lastWriter requestWritten provider (history calls).registered.entries
  oauth : ∀ provider modelId model, find (run world calls) provider modelId = some model →
    lastWriter oauthWritten provider (history calls).applied =
      lastWriter oauthWritten provider (history calls).registered.entries
  headers : ∀ provider modelId model, find (run world calls) provider modelId = some model →
    lastWriter headersWritten (getModelRequestKey provider modelId) (history calls).applied =
      lastWriter headersWritten (getModelRequestKey provider modelId)
        (history calls).registered.entries

theorem mem_history {calls : List (Call σ)} {entry : Registration σ}
    (h : entry ∈ (history calls).applied ∨ entry ∈ (history calls).registered.entries) :
    Call.registerProvider entry.1 entry.2 ∈ calls := by
  induction calls using reverseRecOn with
  | nil => simp [history, OrderedMap.empty] at h
  | append_singleton calls c ih =>
    rw [history_append] at h
    have hold : entry ∈ (history calls).applied ∨ entry ∈ (history calls).registered.entries →
        Call.registerProvider entry.1 entry.2 ∈ calls ++ [c] :=
      fun h => mem_append_left _ (ih h)
    have hdeleted : ∀ name, entry ∈ ((history calls).registered.delete name).entries →
        entry ∈ (history calls).registered.entries :=
      fun name hmem => (mem_filter.mp hmem).1
    cases c with
    | registerProvider providerName config =>
      rw [History.next] at h
      split_ifs at h
      · obtain hmem | hmem := h
        · obtain hmem | hmem := mem_append.mp hmem
          · exact hold (.inl hmem)
          · rw [mem_singleton.mp hmem]
            simp
        · have hget := ((history calls).registered.set providerName config).mem_entries_iff
            entry.1 entry.2
          have hset := hget.mp hmem
          rw [OrderedMap.get_set] at hset
          split_ifs at hset with hname
          · rw [← hname, ← some.inj hset]
            simp
          · exact hold (.inr (((history calls).registered.mem_entries_iff _ _).mpr hset))
      · exact hold h
    | unregisterProvider providerName =>
      rw [History.next] at h
      split_ifs at h
      · exact hold (.inr (hdeleted providerName (h.elim id id)))
      · exact hold h
    | refresh => exact hold (.inr (h.elim id id))

section

variable {world} {calls : List (Call σ)}

theorem run_refresh_sameObserved
    (hlocal : ∀ name config, .registerProvider name config ∈ calls → HookIsLocal (name, config))
    (h : LastSetStands world calls) :
    SameObserved world (run world calls) (refresh world (run world calls)) := by
  rw [refresh_eq]
  have hrun := run_eq world calls
  have hregistered : (run world calls).registeredProviders = (history calls).registered := by
    rw [hrun]
  have hmodels : ∀ provider, ownModels provider (run world calls).tables.models =
      ownModels provider (applyAll world (history calls).registered.entries).models := by
    intro provider
    rw [hrun, ownModels_applyAll world fun entry hmem =>
        hlocal entry.1 entry.2 (mem_history (.inl hmem)),
      ownModels_applyAll world fun entry hmem =>
        hlocal entry.1 entry.2 (mem_history (.inr hmem))]
    exact (absorbs_modelsAfter world provider).foldl_congr _ (h.models provider)
      (h.baseUrls provider)
  rw [hregistered]
  refine ⟨?_, ?_, ?_⟩
  · intro provider modelId
    rw [find_eq, find_eq, hmodels]
  · intro provider modelId model hfound
    obtain ⟨hprovider, hid⟩ := find_spec hfound
    apply getApiKeyAndHeaders_congr
    · rw [hprovider, hrun]
      exact read_foldl_congr (fun (tables : Tables σ) name => tables.oauthProviders.get name)
        (oauthProviders_apply world) _ (h.oauth provider modelId model hfound)
    · rw [hprovider, hrun]
      exact read_foldl_congr
        (fun (tables : Tables σ) name => tables.requests.providerRequestConfigs.get name)
        (requestConfigs_apply world) _ (h.requests provider modelId model hfound)
    · rw [hprovider, hid, hrun]
      exact read_foldl_congr
        (fun (tables : Tables σ) key => tables.requests.modelRequestHeaders.get key)
        (modelHeaders_apply world) _ (h.headers provider modelId model hfound)
  · intro api
    rw [getApiProvider, getApiProvider, hrun]
    exact congrArg (Option.map Prod.fst)
      (read_foldl_congr (fun (tables : Tables σ) api => tables.apiProviders.get api)
        (apiProviders_apply world) _ (h.streams api))

theorem SameObserved.symm {registry registry' : Registry σ}
    (h : SameObserved world registry registry') : SameObserved world registry' registry where
  find provider modelId := (h.find provider modelId).symm
  auth provider modelId model hfound :=
    (h.auth provider modelId model ((h.find provider modelId).trans hfound)).symm
  api api := (h.api api).symm

theorem run_registered_unregistered {providerName : String}
    (hnew : (run world calls).registeredProviders.has providerName = false)
    (config : ProviderConfigInput σ) :
    run world (calls ++ [.registerProvider providerName config, .unregisterProvider providerName]) =
      if isValid providerName config then refresh world (run world calls) else run world calls := by
  have hregistered : (run world calls).registeredProviders = (history calls).registered := by
    rw [run_eq]
  rw [hregistered] at hnew
  have hnotMem := ((history calls).registered.has_eq_false_iff providerName).mp hnew
  have happend : calls ++ [.registerProvider providerName config,
      .unregisterProvider providerName] =
      calls ++ [.registerProvider providerName config] ++ [.unregisterProvider providerName] := by
    rw [append_assoc, singleton_append]
  rw [happend, run_eq, history_append, history_append, refresh_eq, hregistered, History.next,
    History.next]
  split_ifs with hvalid hhas hhas
  · rw [History.rebuilt, OrderedMap.delete_set_of_not_mem _ _ hnotMem]
  · refine absurd (((history calls).registered.set providerName config).has_iff _ |>.mpr ?_) hhas
    rw [OrderedMap.keys_set, if_neg hnotMem]
    simp
  · rw [hnew] at hhas
    cases hhas
  · exact (run_eq world calls).symm

theorem registry_determined
    (hlocal : ∀ name config, .registerProvider name config ∈ calls → HookIsLocal (name, config))
    (h : LastSetStands world calls) :
    SameObserved world (run world calls) (refresh world (run world calls)) ∧
      ∀ name config, (run world calls).registeredProviders.has name = false →
        SameObserved world
          (run world (calls ++ [.registerProvider name config, .unregisterProvider name]))
          (run world calls) := by
  have hsame := run_refresh_sameObserved hlocal h
  refine ⟨hsame, ?_⟩
  intro name config hnew
  rw [run_registered_unregistered hnew]
  split_ifs
  · exact hsame.symm
  · exact ⟨fun _ _ => rfl, fun _ _ _ _ => rfl, fun _ => rfl⟩

end

/-- A process without any models, credentials or APIs. -/
def bareWorld : World Unit where
  modelsJsonPath := ""
  modelsJson := .absent
  builtInModels := []
  builtInOAuthProviders := []
  builtInApiProviders := []
  credentials := .empty
  runtimeOverrides := .empty
  environmentKey _ := none
  resolveConfigValue := some
  now := 0
  refreshOAuthToken _ _ _ := none

def acmeModel : ModelInput where
  id := "m"
  name := "M"
  api := none
  reasoning := false
  input := [.text]
  cost := ⟨0, 0, 0, 0⟩
  contextWindow := 128000
  maxTokens := 4096
  headers := none
  compat := none

def acmeConfig (baseUrl : String) : ProviderConfigInput Unit where
  baseUrl := some baseUrl
  apiKey := some "key"
  api := some "acme-api"
  streamSimple := some ()
  headers := none
  authHeader := none
  oauth := none
  models := some [acmeModel]

def acmeProxy (baseUrl : String) : ProviderConfigInput Unit where
  baseUrl := some baseUrl
  apiKey := none
  api := none
  streamSimple := none
  headers := none
  authHeader := none
  oauth := none
  models := none

/-- A registration that sets all that the one before it has set. -/
theorem registry_determined_again :
    SameObserved bareWorld
        (run bareWorld [.registerProvider "acme" (acmeConfig "https://a"),
          .registerProvider "acme" (acmeConfig "https://b")])
        (refresh bareWorld (run bareWorld [.registerProvider "acme" (acmeConfig "https://a"),
          .registerProvider "acme" (acmeConfig "https://b")])) := by
  have hlast : ∀ p : Registration Unit → Bool,
      p ("acme", acmeConfig "https://a") = p ("acme", acmeConfig "https://b") →
        lastBy p [("acme", acmeConfig "https://a"), ("acme", acmeConfig "https://b")] =
          lastBy p [("acme", acmeConfig "https://b")] := by
    intro p hp
    simp only [lastBy, reverse_cons, reverse_nil, nil_append, cons_append,
      find?_cons, find?_nil, hp]
    cases p ("acme", acmeConfig "https://b") <;> rfl
  refine (registry_determined ?_ ⟨?_, ?_, ?_, ?_, ?_, ?_⟩).1
  · intro name config hmem oauth modify hoauth
    obtain heq | hmem := mem_cons.mp hmem
    · obtain ⟨rfl, rfl⟩ := Call.registerProvider.inj heq
      cases hoauth
    · obtain ⟨rfl, rfl⟩ := Call.registerProvider.inj (mem_singleton.mp hmem)
      cases hoauth
  · intro api
    apply hlast
    change ((if "acme-api" = api then _ else none : Option _).isSome) =
      (if "acme-api" = api then _ else none : Option _).isSome
    split_ifs <;> rfl
  · exact fun provider => hlast _ rfl
  · exact fun provider => hlast _ rfl
  · exact fun provider _ _ _ => hlast _ rfl
  · exact fun provider _ _ _ => hlast _ rfl
  · exact fun provider modelId _ _ => hlast _ rfl

/-- The second registration leaves the models of the first there; a refresh does not. -/
theorem model_lost_by_refresh :
    (∀ name config, .registerProvider name config ∈
        [Call.registerProvider "acme" (acmeConfig "https://a"),
          .registerProvider "acme" (acmeProxy "https://b")] → HookIsLocal (name, config)) ∧
      (find (run bareWorld [.registerProvider "acme" (acmeConfig "https://a"),
          .registerProvider "acme" (acmeProxy "https://b")]) "acme" "m").map (·.baseUrl) =
        some "https://b" ∧
      ¬ SameObserved bareWorld
          (run bareWorld [.registerProvider "acme" (acmeConfig "https://a"),
            .registerProvider "acme" (acmeProxy "https://b")])
          (refresh bareWorld (run bareWorld [.registerProvider "acme" (acmeConfig "https://a"),
            .registerProvider "acme" (acmeProxy "https://b")])) := by
  refine ⟨?_, by decide +kernel, ?_⟩
  · intro name config hmem oauth modify hoauth
    obtain heq | hmem := mem_cons.mp hmem
    · obtain ⟨rfl, rfl⟩ := Call.registerProvider.inj heq
      cases hoauth
    · obtain ⟨rfl, rfl⟩ := Call.registerProvider.inj (mem_singleton.mp hmem)
      cases hoauth
  · intro hsame
    have hfound := congrArg Option.isSome (hsame.find "acme" "m")
    revert hfound
    decide +kernel

end Draht.ModelRegistry
