import Draht.AuthStorage
import Draht.Json
import Mathlib.Data.Rat.Defs

/-!
# The model registry

Models come from a built-in list, from `models.json` and from providers that extensions register.
A registration is applied at once; `refresh` builds everything again from the registrations. The
registry shares the tables of OAuth providers and of APIs with the rest of the process.
-/

namespace Draht.ModelRegistry

open AuthStorage (OAuthCredentials AuthCredential)

abbrev Record (α : Type) := OrderedMap String α

/-- `{ ...base, ...override }`. -/
def spread {α : Type} (base override : Record α) : Record α :=
  override.entries.foldl (fun merged entry => merged.set entry.1 entry.2) base

inductive InputKind where
  | text | image
deriving DecidableEq

structure Cost where
  input : ℚ
  output : ℚ
  cacheRead : ℚ
  cacheWrite : ℚ
deriving DecidableEq

/-- The routing preferences are merged field by field, everything else as a whole. -/
structure Compat where
  fields : Record Json
  openRouterRouting : Option (Record Json)
  vercelGatewayRouting : Option (Record Json)

structure Model where
  id : String
  name : String
  api : String
  provider : String
  baseUrl : String
  reasoning : Bool
  input : List InputKind
  cost : Cost
  contextWindow : ℚ
  maxTokens : ℚ
  headers : Option (Record String)
  compat : Option Compat

structure CostOverride where
  input : Option ℚ
  output : Option ℚ
  cacheRead : Option ℚ
  cacheWrite : Option ℚ

structure ModelOverride where
  name : Option String
  reasoning : Option Bool
  input : Option (List InputKind)
  cost : Option CostOverride
  contextWindow : Option ℚ
  maxTokens : Option ℚ
  headers : Option (Record String)
  compat : Option Compat

def mergeRouting (base override : Option (Record Json)) : Option (Record Json) :=
  if base.isSome || override.isSome then some (spread (base.getD .empty) (override.getD .empty))
  else none

def mergeCompat (baseCompat overrideCompat : Option Compat) : Option Compat :=
  match overrideCompat with
  | none => baseCompat
  | some override => some {
      fields := spread ((baseCompat.map (·.fields)).getD .empty) override.fields
      openRouterRouting :=
        mergeRouting (baseCompat.bind (·.openRouterRouting)) override.openRouterRouting
      vercelGatewayRouting :=
        mergeRouting (baseCompat.bind (·.vercelGatewayRouting)) override.vercelGatewayRouting }

def applyModelOverride (model : Model) (override : ModelOverride) : Model :=
  { model with
    name := override.name.getD model.name
    reasoning := override.reasoning.getD model.reasoning
    input := override.input.getD model.input
    contextWindow := override.contextWindow.getD model.contextWindow
    maxTokens := override.maxTokens.getD model.maxTokens
    cost := (override.cost.map fun cost =>
      { input := cost.input.getD model.cost.input
        output := cost.output.getD model.cost.output
        cacheRead := cost.cacheRead.getD model.cost.cacheRead
        cacheWrite := cost.cacheWrite.getD model.cost.cacheWrite }).getD model.cost
    compat := mergeCompat model.compat override.compat }

/-- A model of `models.json`. -/
structure ModelDefinition where
  id : String
  name : Option String
  api : Option String
  baseUrl : Option String
  reasoning : Option Bool
  input : Option (List InputKind)
  cost : Option Cost
  contextWindow : Option ℚ
  maxTokens : Option ℚ
  headers : Option (Record String)
  compat : Option Compat

/-- A provider of `models.json`. -/
structure ProviderConfig where
  baseUrl : Option String
  apiKey : Option String
  api : Option String
  headers : Option (Record String)
  compat : Option Compat
  authHeader : Option Bool
  models : Option (List ModelDefinition)
  modelOverrides : Option (Record ModelOverride)

structure OAuthProvider where
  name : String
  getApiKey : OAuthCredentials → String
  modifyModels : Option (List Model → OAuthCredentials → List Model)

structure ModelInput where
  id : String
  name : String
  api : Option String
  reasoning : Bool
  input : List InputKind
  cost : Cost
  contextWindow : ℚ
  maxTokens : ℚ
  headers : Option (Record String)
  compat : Option Compat

/-- What a provider is registered with; `σ` are the stream functions. -/
structure ProviderConfigInput (σ : Type) where
  baseUrl : Option String
  apiKey : Option String
  api : Option String
  streamSimple : Option σ
  headers : Option (Record String)
  authHeader : Option Bool
  oauth : Option OAuthProvider
  models : Option (List ModelInput)

structure ApiProvider (σ : Type) where
  api : String
  stream : σ
  streamSimple : σ
deriving DecidableEq

structure ProviderRequestConfig where
  apiKey : Option String
  headers : Option (Record String)
  authHeader : Option Bool

/-- The file as it is read: `invalid` if it cannot be read, is no JSON or violates the schema. -/
inductive ModelsJson where
  | absent
  | invalid (message : String)
  | config (providers : Record ProviderConfig)

/-- What stays as it is. The keys of an OAuth provider's expired credentials depend on what the
provider answers: nothing at all if it is not asked, and otherwise perhaps a key. -/
structure World (σ : Type) where
  modelsJsonPath : String
  modelsJson : ModelsJson
  builtInModels : List (String × List Model)
  builtInOAuthProviders : List (String × OAuthProvider)
  builtInApiProviders : List (ApiProvider σ)
  credentials : Record AuthCredential
  runtimeOverrides : Record String
  environmentKey : String → Option String
  resolveConfigValue : String → Option String
  now : ℕ
  refreshOAuthToken : String → OAuthProvider → OAuthCredentials → Option (Option String)

structure RequestTables where
  providerRequestConfigs : Record ProviderRequestConfig
  modelRequestHeaders : Record (Record String)

structure Tables (σ : Type) where
  models : List Model
  requests : RequestTables
  loadError : Option String
  oauthProviders : Record OAuthProvider
  apiProviders : Record (ApiProvider σ × Option String)

structure Registry (σ : Type) where
  tables : Tables σ
  registeredProviders : Record (ProviderConfigInput σ)

def truthy (text : Option String) : Bool := text.any (· ≠ "")

def getModelRequestKey (provider modelId : String) : String := provider ++ ":" ++ modelId

def storeProviderRequestConfig (requests : RequestTables) (providerName : String)
    (config : ProviderRequestConfig) : RequestTables :=
  if !truthy config.apiKey && config.headers.isNone && config.authHeader != some true then requests
  else { requests with
    providerRequestConfigs := requests.providerRequestConfigs.set providerName config }

def storeModelHeaders (requests : RequestTables) (providerName modelId : String)
    (headers : Option (Record String)) : RequestTables :=
  let key := getModelRequestKey providerName modelId
  { requests with
    modelRequestHeaders :=
      match headers with
      | none => requests.modelRequestHeaders.delete key
      | some headers =>
        if headers.size = 0 then requests.modelRequestHeaders.delete key
        else requests.modelRequestHeaders.set key headers }

def validateModel (providerName : String) (providerConfig : ProviderConfig)
    (modelDef : ModelDefinition) : Except String Unit := do
  if !truthy providerConfig.api && !truthy modelDef.api then
    throw (s!"Provider {providerName}, model {modelDef.id}: no \"api\" specified. " ++
      "Set at provider or model level.")
  if modelDef.id = "" then throw s!"Provider {providerName}: model missing \"id\""
  if modelDef.contextWindow.any (· ≤ 0) then
    throw s!"Provider {providerName}, model {modelDef.id}: invalid contextWindow"
  if modelDef.maxTokens.any (· ≤ 0) then
    throw s!"Provider {providerName}, model {modelDef.id}: invalid maxTokens"

def validateProvider (providerName : String) (providerConfig : ProviderConfig) :
    Except String Unit := do
  let models := providerConfig.models.getD []
  let hasModelOverrides := providerConfig.modelOverrides.any (0 < ·.size)
  if models.length = 0 then
    if !truthy providerConfig.baseUrl && providerConfig.compat.isNone && !hasModelOverrides then
      throw (s!"Provider {providerName}: must specify \"baseUrl\", \"compat\", " ++
        "\"modelOverrides\", or \"models\".")
  else
    if !truthy providerConfig.baseUrl then
      throw s!"Provider {providerName}: \"baseUrl\" is required when defining custom models."
    if !truthy providerConfig.apiKey then
      throw s!"Provider {providerName}: \"apiKey\" is required when defining custom models."
  models.forM (validateModel providerName providerConfig)

def validateConfig (providers : Record ProviderConfig) : Except String Unit :=
  providers.entries.forM fun entry => validateProvider entry.1 entry.2

structure ProviderOverride where
  baseUrl : Option String
  compat : Option Compat

structure CustomModelsResult where
  models : List Model
  overrides : Record ProviderOverride
  modelOverrides : Record (Record ModelOverride)
  error : Option String

def emptyCustomModelsResult (error : Option String) : CustomModelsResult :=
  ⟨[], .empty, .empty, error⟩

/-- The first of two texts that is there and not empty. -/
def orElse (text other : Option String) : Option String := if truthy text then text else other

def parseModel (providerName : String) (providerConfig : ProviderConfig)
    (modelDef : ModelDefinition) (api : String) : Model where
  id := modelDef.id
  name := modelDef.name.getD modelDef.id
  api
  provider := providerName
  baseUrl := modelDef.baseUrl.getD (providerConfig.baseUrl.getD "")
  reasoning := modelDef.reasoning.getD false
  input := modelDef.input.getD [.text]
  cost := modelDef.cost.getD ⟨0, 0, 0, 0⟩
  contextWindow := modelDef.contextWindow.getD 128000
  maxTokens := modelDef.maxTokens.getD 16384
  headers := none
  compat := mergeCompat providerConfig.compat modelDef.compat

/-- The models of all providers; the headers of each are stored. -/
def parseModels (requests : RequestTables) (providers : Record ProviderConfig) :
    RequestTables × List Model :=
  providers.entries.foldl (fun parsed entry =>
    (entry.2.models.getD []).foldl (fun (parsed : RequestTables × List Model) modelDef =>
      let api := orElse modelDef.api entry.2.api
      if truthy api then
        (storeModelHeaders parsed.1 entry.1 modelDef.id modelDef.headers,
          parsed.2 ++ [parseModel entry.1 entry.2 modelDef (api.getD "")])
      else parsed) parsed) (requests, [])

def loadProvider (loaded : RequestTables × CustomModelsResult) (providerName : String)
    (providerConfig : ProviderConfig) : RequestTables × CustomModelsResult :=
  let (requests, result) := loaded
  let result :=
    if truthy providerConfig.baseUrl || providerConfig.compat.isSome then
      { result with
        overrides := result.overrides.set providerName
          ⟨providerConfig.baseUrl, providerConfig.compat⟩ }
    else result
  let requests := storeProviderRequestConfig requests providerName
    ⟨providerConfig.apiKey, providerConfig.headers, providerConfig.authHeader⟩
  match providerConfig.modelOverrides with
  | none => (requests, result)
  | some modelOverrides =>
    (modelOverrides.entries.foldl (fun requests entry =>
        storeModelHeaders requests providerName entry.1 entry.2.headers) requests,
      { result with modelOverrides := result.modelOverrides.set providerName modelOverrides })

def loadCustomModels {σ : Type} (world : World σ) (requests : RequestTables) :
    RequestTables × CustomModelsResult :=
  match world.modelsJson with
  | .absent => (requests, emptyCustomModelsResult none)
  | .invalid message => (requests, emptyCustomModelsResult (some message))
  | .config providers =>
    match validateConfig providers with
    | .error message =>
      (requests, emptyCustomModelsResult (some
        s!"Failed to load models.json: {message}\n\nFile: {world.modelsJsonPath}"))
    | .ok () =>
      let (requests, result) := providers.entries.foldl
        (fun loaded entry => loadProvider loaded entry.1 entry.2)
        (requests, emptyCustomModelsResult none)
      let (requests, models) := parseModels requests providers
      (requests, { result with models })

def loadBuiltInModel (result : CustomModelsResult) (provider : String) (model : Model) : Model :=
  let model :=
    match result.overrides.get provider with
    | none => model
    | some providerOverride =>
      { model with
        baseUrl := providerOverride.baseUrl.getD model.baseUrl
        compat := mergeCompat model.compat providerOverride.compat }
  match (result.modelOverrides.get provider).bind (·.get model.id) with
  | none => model
  | some modelOverride => applyModelOverride model modelOverride

def loadBuiltInModels {σ : Type} (world : World σ) (result : CustomModelsResult) : List Model :=
  world.builtInModels.flatMap fun entry => entry.2.map (loadBuiltInModel result entry.1)

/-- A model takes the place of the first one of its provider and id, if there is one. -/
def mergeCustomModel (merged : List Model) (customModel : Model) : List Model :=
  match merged.findIdx? fun m => m.provider = customModel.provider && m.id = customModel.id with
  | some existingIndex => merged.set existingIndex customModel
  | none => merged ++ [customModel]

def mergeCustomModels (builtInModels customModels : List Model) : List Model :=
  customModels.foldl mergeCustomModel builtInModels

variable {σ : Type} (world : World σ)

/-- The models as an OAuth provider gives them, if there are credentials of its. -/
def modifyModels (providerId : String) (oauth : OAuthProvider) (models : List Model) :
    List Model :=
  match world.credentials.get providerId, oauth.modifyModels with
  | some (.oauth cred), some modify => modify models cred
  | _, _ => models

def loadModels (tables : Tables σ) : Tables σ :=
  let (requests, result) := loadCustomModels world tables.requests
  let combined := mergeCustomModels (loadBuiltInModels world result) result.models
  { tables with
    models := tables.oauthProviders.entries.foldl
      (fun combined entry => modifyModels world entry.1 entry.2 combined) combined
    requests
    loadError := result.error.orElse fun _ => tables.loadError }

def registerApiProvider (tables : Tables σ) (provider : ApiProvider σ)
    (sourceId : Option String) : Tables σ :=
  { tables with apiProviders := tables.apiProviders.set provider.api (provider, sourceId) }

def resetApiProviders (tables : Tables σ) : Tables σ :=
  world.builtInApiProviders.foldl (fun tables provider => registerApiProvider tables provider none)
    { tables with apiProviders := .empty }

def registerOAuthProvider (tables : Tables σ) (id : String) (provider : OAuthProvider) : Tables σ :=
  { tables with oauthProviders := tables.oauthProviders.set id provider }

def resetOAuthProviders (tables : Tables σ) : Tables σ :=
  world.builtInOAuthProviders.foldl
    (fun tables entry => registerOAuthProvider tables entry.1 entry.2)
    { tables with oauthProviders := .empty }

def validateProviderConfig (providerName : String) (config : ProviderConfigInput σ) :
    Except String Unit := do
  if config.streamSimple.isSome && !truthy config.api then
    throw s!"Provider {providerName}: \"api\" is required when registering streamSimple."
  let models := config.models.getD []
  if models.length = 0 then return
  if !truthy config.baseUrl then
    throw s!"Provider {providerName}: \"baseUrl\" is required when defining models."
  if !truthy config.apiKey && config.oauth.isNone then
    throw s!"Provider {providerName}: \"apiKey\" or \"oauth\" is required when defining models."
  models.forM fun modelDef => do
    if !truthy (orElse modelDef.api config.api) then
      throw s!"Provider {providerName}, model {modelDef.id}: no \"api\" specified."

def newModel (providerName : String) (config : ProviderConfigInput σ) (modelDef : ModelInput) :
    Model where
  id := modelDef.id
  name := modelDef.name
  api := (orElse modelDef.api config.api).getD ""
  provider := providerName
  baseUrl := config.baseUrl.getD ""
  reasoning := modelDef.reasoning
  input := modelDef.input
  cost := modelDef.cost
  contextWindow := modelDef.contextWindow
  maxTokens := modelDef.maxTokens
  headers := none
  compat := modelDef.compat

/-- The provider's models are replaced by those of the registration. -/
def replaceModels (tables : Tables σ) (providerName : String) (config : ProviderConfigInput σ)
    (models : List ModelInput) : Tables σ :=
  let tables := { tables with models := tables.models.filter (·.provider ≠ providerName) }
  let tables := models.foldl (fun tables modelDef =>
    { tables with
      requests := storeModelHeaders tables.requests providerName modelDef.id modelDef.headers
      models := tables.models ++ [newModel providerName config modelDef] }) tables
  match config.oauth with
  | none => tables
  | some oauth => { tables with models := modifyModels world providerName oauth tables.models }

def overrideBaseUrl (providerName : String) (config : ProviderConfigInput σ) (m : Model) : Model :=
  if m.provider ≠ providerName then m else { m with baseUrl := config.baseUrl.getD m.baseUrl }

def applyProviderConfig (tables : Tables σ) (providerName : String)
    (config : ProviderConfigInput σ) : Tables σ :=
  let tables :=
    match config.oauth with
    | none => tables
    | some oauth => registerOAuthProvider tables providerName oauth
  let tables :=
    match config.streamSimple with
    | none => tables
    | some streamSimple =>
      registerApiProvider tables ⟨config.api.getD "", streamSimple, streamSimple⟩
        (some s!"provider:{providerName}")
  let tables := { tables with
    requests := storeProviderRequestConfig tables.requests providerName
      ⟨config.apiKey, config.headers, config.authHeader⟩ }
  let models := config.models.getD []
  if 0 < models.length then replaceModels world tables providerName config models
  else if truthy config.baseUrl || config.headers.isSome then
    { tables with models := tables.models.map (overrideBaseUrl providerName config) }
  else tables

variable (registry : Registry σ)

def created : Tables σ :=
  loadModels world (resetOAuthProviders world (resetApiProviders world
    ⟨[], ⟨.empty, .empty⟩, none, .empty, .empty⟩))

def create : Registry σ := ⟨created world, .empty⟩

def refresh : Registry σ :=
  let tables := { registry.tables with requests := ⟨.empty, .empty⟩, loadError := none }
  let tables := loadModels world (resetOAuthProviders world (resetApiProviders world tables))
  { registry with
    tables := registry.registeredProviders.entries.foldl
      (fun tables entry => applyProviderConfig world tables entry.1 entry.2) tables }

def registerProvider (providerName : String) (config : ProviderConfigInput σ) :
    Except String (Registry σ) := do
  validateProviderConfig providerName config
  return {
    tables := applyProviderConfig world registry.tables providerName config
    registeredProviders := registry.registeredProviders.set providerName config }

def unregisterProvider (providerName : String) : Registry σ :=
  if registry.registeredProviders.has providerName then
    refresh world { registry with
      registeredProviders := registry.registeredProviders.delete providerName }
  else registry

inductive Call (σ : Type) where
  | registerProvider (providerName : String) (config : ProviderConfigInput σ)
  | unregisterProvider (providerName : String)
  | refresh

def call : Call σ → Registry σ
  | .registerProvider providerName config =>
    match registerProvider world registry providerName config with
    | .error _ => registry
    | .ok registry => registry
  | .unregisterProvider providerName => unregisterProvider world registry providerName
  | .refresh => refresh world registry

def run (calls : List (Call σ)) : Registry σ := calls.foldl (call world) (create world)

def find (provider modelId : String) : Option Model :=
  registry.tables.models.find? fun m => m.provider = provider && m.id = modelId

def getApiProvider (api : String) : Option (ApiProvider σ) :=
  (registry.tables.apiProviders.get api).map Prod.fst

/-- `authStorage.getApiKey(providerId, { includeFallback: false })`. -/
def getApiKey (providerId : String) : Option String :=
  if truthy (world.runtimeOverrides.get providerId) then world.runtimeOverrides.get providerId
  else
    let envKey := orElse (world.environmentKey providerId) none
    match world.credentials.get providerId with
    | some (.apiKey key) => world.resolveConfigValue key
    | some (.oauth cred) =>
      match registry.tables.oauthProviders.get providerId with
      | none => none
      | some provider =>
        if cred.expires ≤ world.now then
          match world.refreshOAuthToken providerId provider cred with
          | some apiKey => apiKey
          | none => envKey
        else some (provider.getApiKey cred)
    | none => envKey

def resolveConfigValueOrThrow (config description : String) : Except String String :=
  match world.resolveConfigValue config with
  | some resolvedValue => .ok resolvedValue
  | none =>
    if config.startsWith "!" then
      .error s!"Failed to resolve {description} from shell command: {config.drop 1}"
    else .error s!"Failed to resolve {description}"

def resolveHeadersOrThrow (headers : Option (Record String)) (description : String) :
    Except String (Option (Record String)) := do
  match headers with
  | none => return none
  | some headers =>
    let resolved ← headers.entries.foldlM (fun (resolved : Record String) entry => do
      let value ← resolveConfigValueOrThrow world entry.2
        s!"{description} header \"{entry.1}\""
      return resolved.set entry.1 value) .empty
    return if resolved.size = 0 then none else some resolved

structure ResolvedRequestAuth where
  apiKey : Option String
  headers : Option (Record String)

def getApiKeyAndHeaders (model : Model) : Except String ResolvedRequestAuth := do
  let providerConfig := registry.tables.requests.providerRequestConfigs.get model.provider
  let configured := providerConfig.bind (·.apiKey)
  let apiKey ←
    match getApiKey world registry model.provider with
    | some apiKey => pure (some apiKey)
    | none =>
      if truthy configured then
        some <$> resolveConfigValueOrThrow world (configured.getD "")
          s!"API key for provider \"{model.provider}\""
      else pure none
  let providerHeaders ← resolveHeadersOrThrow world (providerConfig.bind (·.headers))
    s!"provider \"{model.provider}\""
  let modelHeaders ← resolveHeadersOrThrow world
    (registry.tables.requests.modelRequestHeaders.get (getModelRequestKey model.provider model.id))
    s!"model \"{model.provider}/{model.id}\""
  let headers := spread (spread (model.headers.getD .empty) (providerHeaders.getD .empty))
    (modelHeaders.getD .empty)
  let headers ←
    if providerConfig.bind (·.authHeader) = some true then
      if truthy apiKey then pure (headers.set "Authorization" ("Bearer " ++ apiKey.getD ""))
      else throw s!"No API key found for \"{model.provider}\""
    else pure headers
  return ⟨apiKey, if 0 < headers.size then some headers else none⟩

end Draht.ModelRegistry
