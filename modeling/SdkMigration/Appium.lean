import SdkMigration.Window

/-!
# `appium-conversion.py`: the capability rewrite

The third script rewrites JSON capability files as text.  `update_appium_capabilities`
first deletes two obsolete key and value pairs, each in the spacing `"k": "v",` or else in
the spacing `"k" : "v",`, and then walks a table of 194 capability names: a name whose
quoted form occurs in the text and whose scope list holds `all` is prefixed with `appium:`
by `str.replace`, and the one name with other scopes, `deviceName`, is prefixed when the
lower-cased text holds the scope's driver type and, unless the scope says `all`, its driver
scope too.  Every step prints a line, and the model keeps those lines in order.

The comment above the first loop says it removes the unused options, but the `elif` removes
the second spacing only where the first is absent, so a text holding both spacings keeps one
(`updateAppiumCapabilities_both_spacings`); and `str.replace` reads non-overlapping
occurrences, so of two quoted keys that share a quote only the first is prefixed.  What the
script does for every text is `updateAppiumCapabilities_edits`: the written text comes from
the input by deletions of obsolete pairs followed by renames of quoted names of the table;
where the input holds at most one spacing of each pair and no pair nested in another, no pair
is left; a name scoped `all`, or one of whose scopes passes its test, keeps a quoted copy only
where the text held two copies sharing a quote; `deviceName` gains its prefix only where one
of its scopes passes its test; and no name is ever prefixed twice.

## Honest boundary

`str.lower` is modelled by `Char.toLower`, which lowers ASCII letters only.  The texts the
script looks for in the lowered text are ASCII words without a `k`, and no character
outside ASCII lowers to one of their letters alone, so the tests agree with Python's.
Reading and writing the file are left to the caller.
-/

namespace SdkMigration.Appium

open Regex Relation

/-- `unused_applause_options`: obsolete keys and the values under which they are deleted. -/
def unusedApplauseOptions : List (String × List String) :=
  [("isStrict", ["true", "false"]), ("isMobileNative", ["false"])]

/-- `capabilities_to_update`: capability names and their scopes, in the source's order. -/
def capabilitiesToUpdate : List (String × List String) := [
  ("adbExecTimeout", ["all"]),
  ("adbPort", ["all"]),
  ("absoluteWebLocations", ["all"]),
  ("additionalWebviewBundleIds", ["all"]),
  ("allowDelayAdb", ["all"]),
  ("allowProvisioningDeviceRegistration", ["all"]),
  ("allowTestPackages", ["all"]),
  ("androidInstallTimeout", ["all"]),
  ("app", ["all"]),
  ("appActivity", ["all"]),
  ("appInstallStrategy", ["all"]),
  ("appPackage", ["all"]),
  ("appPushTimeout", ["all"]),
  ("appWaitActivity", ["all"]),
  ("appWaitDuration", ["all"]),
  ("appWaitForLaunch", ["all"]),
  ("appWaitPackage", ["all"]),
  ("autoAcceptAlerts", ["all"]),
  ("autoDismissAlerts", ["all"]),
  ("autoFillPasswords", ["all"]),
  ("autoGrantPermissions", ["all"]),
  ("autoLaunch", ["all"]),
  ("autoWebview", ["all"]),
  ("autoWebviewName", ["all"]),
  ("autoWebviewTimeout", ["all"]),
  ("automationName", ["all"]),
  ("avd", ["all"]),
  ("avdArgs", ["all"]),
  ("avdEnv", ["all"]),
  ("avdLaunchTimeout", ["all"]),
  ("avdReadyTimeout", ["all"]),
  ("buildToolsVersion", ["all"]),
  ("bundleId", ["all"]),
  ("calendarAccessAuthorized", ["all"]),
  ("calendarFormat", ["all"]),
  ("chromeLoggingPrefs", ["all"]),
  ("chromeOptions", ["all"]),
  ("chromedriverArgs", ["all"]),
  ("chromedriverChromeMappingFile", ["all"]),
  ("chromedriverDisableBuildCheck", ["all"]),
  ("chromedriverExecutable", ["all"]),
  ("chromedriverExecutableDir", ["all"]),
  ("chromedriverPort", ["all"]),
  ("chromedriverPorts", ["all"]),
  ("chromedriverUseSystemExecutable", ["all"]),
  ("clearDeviceLogsOnStart", ["all"]),
  ("clearSystemFiles", ["all"]),
  ("commandTimeouts", ["all"]),
  ("connectHardwareKeyboard", ["all"]),
  ("customSSLCert", ["all"]),
  ("derivedDataPath", ["all"]),
  ("deviceName", ["mobileweb_saucelabs", "mobilenative_all", "native_all"]),
  ("disableAutomaticScreenshots", ["all"]),
  ("disableSuppressAccessibilityService", ["all"]),
  ("disableWindowAnimation", ["all"]),
  ("dontStopAppOnReset", ["all"]),
  ("enableAsyncExecuteFromHttps", ["all"]),
  ("enablePerformanceLogging", ["all"]),
  ("enableWebviewDetailsCollection", ["all"]),
  ("enforceAppInstall", ["all"]),
  ("enforceFreshSimulatorCreation", ["all"]),
  ("ensureWebviewsHavePages", ["all"]),
  ("extractChromeAndroidPackageFromContextName", ["all"]),
  ("forceAppLaunch", ["all"]),
  ("forceSimulatorSoftwareKeyboardPresence", ["all"]),
  ("fullContextList", ["all"]),
  ("fullReset", ["all"]),
  ("gpsEnabled", ["all"]),
  ("hideKeyboard", ["all"]),
  ("ignoreHiddenApiPolicyError", ["all"]),
  ("includeDeviceCapsToSessionInfo", ["all"]),
  ("includeSafariInWebviews", ["all"]),
  ("injectedImageProperties", ["all"]),
  ("intentAction", ["all"]),
  ("intentCategory", ["all"]),
  ("intentFlags", ["all"]),
  ("iosInstallPause", ["all"]),
  ("iosSimulatorLogsPredicate", ["all"]),
  ("isHeadless", ["all"]),
  ("keepKeyChains", ["all"]),
  ("keyAlias", ["all"]),
  ("keyPassword", ["all"]),
  ("keychainPassword", ["all"]),
  ("keychainPath", ["all"]),
  ("keychainsExcludePatterns", ["all"]),
  ("keystorePassword", ["all"]),
  ("keystorePath", ["all"]),
  ("language", ["all"]),
  ("launchWithIDB", ["all"]),
  ("locale", ["all"]),
  ("localeScript", ["all"]),
  ("localizableStringsDir", ["all"]),
  ("logcatFilterSpecs", ["all"]),
  ("logcatFormat", ["all"]),
  ("maxTypingFrequency", ["all"]),
  ("mjpegScreenshotUrl", ["all"]),
  ("mjpegServerPort", ["all"]),
  ("mockLocationApp", ["all"]),
  ("nativeWebScreenshot", ["all"]),
  ("nativeWebTap", ["all"]),
  ("nativeWebTapStrict", ["all"]),
  ("networkSpeed", ["all"]),
  ("newCommandTimeout", ["all"]),
  ("noReset", ["all"]),
  ("noSign", ["all"]),
  ("optionalIntentArguments", ["all"]),
  ("orientation", ["all"]),
  ("otherApps", ["all"]),
  ("permissions", ["all"]),
  ("platformVersion", ["all"]),
  ("prebuiltWDAPath", ["all"]),
  ("printPageSourceOnFindFailure", ["all"]),
  ("processArguments", ["all"]),
  ("recreateChromeDriverSessions", ["all"]),
  ("reduceMotion", ["all"]),
  ("reduceTransparency", ["all"]),
  ("remoteAdbHost", ["all"]),
  ("remoteAppsCacheLimit", ["all"]),
  ("resetLocationService", ["all"]),
  ("resetOnSessionStartOnly", ["all"]),
  ("resultBundlePath", ["all"]),
  ("resultBundleVersion", ["all"]),
  ("safariAllowPopups", ["all"]),
  ("safariGarbageCollect", ["all"]),
  ("safariGlobalPreferences", ["all"]),
  ("safariIgnoreFraudWarning", ["all"]),
  ("safariIgnoreWebHostnames", ["all"]),
  ("safariInitialUrl", ["all"]),
  ("safariLogAllCommunication", ["all"]),
  ("safariLogAllCommunicationHexDump", ["all"]),
  ("safariOpenLinksInBackground", ["all"]),
  ("safariSocketChunkSize", ["all"]),
  ("safariWebInspectorMaxFrameLength", ["all"]),
  ("scaleFactor", ["all"]),
  ("screenshotQuality", ["all"]),
  ("shouldTerminateApp", ["all"]),
  ("shouldUseSingletonTestManager", ["all"]),
  ("showChromedriverLog", ["all"]),
  ("showIOSLog", ["all"]),
  ("showXcodeLog", ["all"]),
  ("shutdownOtherSimulators", ["all"]),
  ("simpleIsVisibleCheck", ["all"]),
  ("simulatorDevicesSetPath", ["all"]),
  ("simulatorPasteboardAutomaticSync", ["all"]),
  ("simulatorStartupTimeout", ["all"]),
  ("simulatorTracePointer", ["all"]),
  ("simulatorWindowCenter", ["all"]),
  ("skipDeviceInitialization", ["all"]),
  ("skipLogCapture", ["all"]),
  ("skipLogcatCapture", ["all"]),
  ("skipServerInstallation", ["all"]),
  ("skipUnlock", ["all"]),
  ("suppressKillServer", ["all"]),
  ("systemPort", ["all"]),
  ("timeZone", ["all"]),
  ("udid", ["all"]),
  ("uiautomator2ServerInstallTimeout", ["all"]),
  ("uiautomator2ServerLaunchTimeout", ["all"]),
  ("uiautomator2ServerReadTimeout", ["all"]),
  ("uninstallOtherPackages", ["all"]),
  ("unlockKey", ["all"]),
  ("unlockStrategy", ["all"]),
  ("unlockSuccessTimeout", ["all"]),
  ("unlockType", ["all"]),
  ("updatedWDABundleId", ["all"]),
  ("useJSONSource", ["all"]),
  ("useKeystore", ["all"]),
  ("useNativeCachingStrategy", ["all"]),
  ("useNewWDA", ["all"]),
  ("usePrebuiltWDA", ["all"]),
  ("usePreinstalledWDA", ["all"]),
  ("useSimpleBuildTest", ["all"]),
  ("useXctestrunFile", ["all"]),
  ("userProfile", ["all"]),
  ("waitForIdleTimeout", ["all"]),
  ("waitForQuiescence", ["all"]),
  ("wdaBaseUrl", ["all"]),
  ("wdaConnectionTimeout", ["all"]),
  ("wdaEventloopIdleDelay", ["all"]),
  ("wdaLaunchTimeout", ["all"]),
  ("wdaLocalPort", ["all"]),
  ("wdaStartupRetries", ["all"]),
  ("wdaStartupRetryInterval", ["all"]),
  ("webDriverAgentUrl", ["all"]),
  ("webkitResponseTimeout", ["all"]),
  ("webviewConnectRetries", ["all"]),
  ("webviewConnectTimeout", ["all"]),
  ("webviewDevtoolsPort", ["all"]),
  ("xcodeConfigFile", ["all"]),
  ("xcodeOrgId", ["all"]),
  ("xcodeSigningId", ["all"]),
  ("commandTimeout", ["all"]),
  ("deviceOrientation", ["all"]),
  ("idleTimeout", ["all"])]

/-- The text being rewritten and the lines printed so far. -/
structure Rewrite where
  contents : List Char
  printed : List String
deriving DecidableEq

/-- `f"\"{capability}\""`: a capability name in quotes. -/
def quoted (capability : String) : List Char := ("\"" ++ capability ++ "\"").toList

/-- `f"\"{option}\": \"{value}\","`. -/
def optionPair (option value : String) : List Char :=
  ("\"" ++ option ++ "\": \"" ++ value ++ "\",").toList

/-- `f"\"{option}\" : \"{value}\","`. -/
def optionPairSpaced (option value : String) : List Char :=
  ("\"" ++ option ++ "\" : \"" ++ value ++ "\",").toList

/-- One `(option, value)` of the first loop: delete the pair in the first spacing if it
occurs, or else in the second. -/
def removeUnusedOption (filepath : String) (st : Rewrite) (option value : String) : Rewrite :=
  let line := "Removing unused option: " ++ option ++ " with value: " ++ value ++ " from " ++
    filepath
  if optionPair option value <:+: st.contents then
    ⟨strReplace (optionPair option value) [] st.contents, st.printed ++ [line]⟩
  else if optionPairSpaced option value <:+: st.contents then
    ⟨strReplace (optionPairSpaced option value) [] st.contents, st.printed ++ [line]⟩
  else st

/-- `f"\"appium:{capability}\""`: the name with its prefix, in quotes. -/
def renamed (capability : String) : List Char := ("\"appium:" ++ capability ++ "\"").toList

/-- `update_single_capability`: prefix every quoted occurrence of the name. -/
def updateSingleCapability (filepath : String) (st : Rewrite) (capability : String) : Rewrite :=
  ⟨strReplace (quoted capability) (renamed capability) st.contents,
    st.printed ++ ["Updating capability: " ++ capability ++ " in " ++ filepath]⟩

/-- `contents.lower()`. -/
def lower (s : List Char) : List Char := s.map Char.toLower

/-- Print a line. -/
def Rewrite.print (st : Rewrite) (line : String) : Rewrite := { st with printed := st.printed ++ [line] }

/-- One scope of a capability whose scopes do not hold `all`. -/
def scopeStep (filepath capability : String) (st : Rewrite) (scope : String) : Rewrite :=
  match scope.toList.splitOn '_' with
  | [driverType, driverScope] =>
    if ¬driverType <:+: lower st.contents then
      st.print ("Driver type " ++ String.mk driverType ++ " for capability " ++ capability ++
        " not found in " ++ filepath ++ ". Skipping.")
    else if driverScope = "all".toList then updateSingleCapability filepath st capability
    else if driverScope <:+: lower st.contents then updateSingleCapability filepath st capability
    else
      st.print ("Warning: Scope " ++ String.mk driverScope ++ " for capability " ++ capability ++
        " not found in " ++ filepath ++ ". Skipping.")
  | _ =>
    st.print ("Warning: Scope " ++ scope ++ " for capability " ++ capability ++
      " is not recognized. Skipping.")

/-- One entry of the capability loop. -/
def capabilityStep (filepath : String) (st : Rewrite) (entry : String × List String) : Rewrite :=
  if ¬quoted entry.1 <:+: st.contents then st
  else if "all" ∈ entry.2 then updateSingleCapability filepath st entry.1
  else entry.2.foldl (scopeStep filepath entry.1) st

/-- The first loop of `update_appium_capabilities`. -/
def removeUnusedOptions (filepath : String) (st : Rewrite) : Rewrite :=
  unusedApplauseOptions.foldl
    (fun st o => o.2.foldl (fun st v => removeUnusedOption filepath st o.1 v) st) st

/-- `update_appium_capabilities(filepath)` on the file's contents: the text it writes back,
and the lines it prints. -/
def updateAppiumCapabilities (filepath : String) (contents : List Char) : Rewrite :=
  capabilitiesToUpdate.foldl (capabilityStep filepath) (removeUnusedOptions filepath ⟨contents, []⟩)

theorem quoted_eq (k : String) : quoted k = '"' :: (k.toList ++ ['"']) := rfl

theorem quoted_ne_nil (k : String) : quoted k ≠ [] := List.cons_ne_nil _ _

theorem renamed_eq (k : String) : renamed k = '"' :: ("appium:".toList ++ k.toList ++ ['"']) := rfl

/-- `"k"k"`: two quoted copies of a name that share a quote. -/
def doubled (capability : String) : List Char := quoted capability ++ (capability.toList ++ ['"'])

theorem doubled_eq (k : String) :
    doubled k = '"' :: (k.toList ++ '"' :: (k.toList ++ ['"'])) := by
  simp [doubled, quoted_eq]

/-! ## The two loops as runs of single edits

`str.replace` is a run of single replacements (`strReplace_replaceOnce`), so the first loop
is a run of deletions of obsolete pairs and the capability loop a run of renames of quoted
names of the table. -/

/-- One rename of a name of `l`: one quoted copy of it prefixed. -/
def RenameStepIn (l : List (String × List String)) (a b : List Char) : Prop :=
  ∃ e ∈ l, ReplaceOnce (quoted e.1) (renamed e.1) a b

/-- One rename of the capability loop: one quoted name of the table prefixed. -/
def RenameStep (a b : List Char) : Prop := RenameStepIn capabilitiesToUpdate a b

/-- One deletion of the first loop: one copy of an obsolete pair, in either spacing. -/
def DeleteStep (a b : List Char) : Prop :=
  ∃ o ∈ unusedApplauseOptions, ∃ v ∈ o.2,
    ReplaceOnce (optionPair o.1 v) [] a b ∨ ReplaceOnce (optionPairSpaced o.1 v) [] a b

section Runs

/-- A loop over `l` whose every step takes the text by `r`-steps takes it by `r`-steps. -/
theorem reflTransGen_foldl {β : Type} {r : List Char → List Char → Prop}
    {f : Rewrite → β → Rewrite} :
    ∀ {l : List β} (st : Rewrite), (∀ b ∈ l, ∀ st, ReflTransGen r st.contents (f st b).contents) →
      ReflTransGen r st.contents (l.foldl f st).contents
  | [], _, _ => .refl
  | b :: _, st, h =>
    (h b (.head _) st).trans (reflTransGen_foldl (f st b) fun b' hb' => h b' (.tail _ hb'))

theorem removeUnusedOption_deletes (filepath : String) (st : Rewrite)
    {o : String × List String} (ho : o ∈ unusedApplauseOptions) {v : String} (hv : v ∈ o.2) :
    ReflTransGen DeleteStep st.contents (removeUnusedOption filepath st o.1 v).contents := by
  unfold removeUnusedOption
  split_ifs
  · exact (strReplace_replaceOnce (List.cons_ne_nil _ _) _).mono fun _ _ h => ⟨o, ho, v, hv, .inl h⟩
  · exact (strReplace_replaceOnce (List.cons_ne_nil _ _) _).mono fun _ _ h => ⟨o, ho, v, hv, .inr h⟩
  · exact .refl

/-- The first loop only deletes obsolete pairs. -/
theorem removeUnusedOptions_deletes (filepath : String) (st : Rewrite) :
    ReflTransGen DeleteStep st.contents (removeUnusedOptions filepath st).contents :=
  reflTransGen_foldl st fun _ ho st =>
    reflTransGen_foldl st fun _ hv st => removeUnusedOption_deletes filepath st ho hv

theorem updateSingleCapability_renames (filepath : String) (st : Rewrite) (k : String) :
    ReflTransGen (ReplaceOnce (quoted k) (renamed k)) st.contents
      (updateSingleCapability filepath st k).contents :=
  strReplace_replaceOnce (quoted_ne_nil _) _

/-- A scope either prints a line or renames the capability. -/
theorem scopeStep_contents (filepath k : String) (st : Rewrite) (scope : String) :
    (scopeStep filepath k st scope).contents = st.contents ∨
      scopeStep filepath k st scope = updateSingleCapability filepath st k := by
  unfold scopeStep
  split
  · split_ifs <;> simp [Rewrite.print]
  · simp [Rewrite.print]

theorem capabilityStep_renames (filepath : String) (st : Rewrite) (e : String × List String) :
    ReflTransGen (ReplaceOnce (quoted e.1) (renamed e.1)) st.contents
      (capabilityStep filepath st e).contents := by
  unfold capabilityStep
  split_ifs
  · exact updateSingleCapability_renames filepath st e.1
  · refine reflTransGen_foldl st fun sc _ st => ?_
    rcases scopeStep_contents filepath e.1 st sc with h | h
    · rw [h]
    · rw [h]; exact updateSingleCapability_renames filepath st e.1
  · exact .refl

/-- A loop over entries `l` of the capability table only renames quoted names of `l`. -/
theorem capabilities_renames_in (filepath : String) (l : List (String × List String))
    (st : Rewrite) :
    ReflTransGen (RenameStepIn l) st.contents (l.foldl (capabilityStep filepath) st).contents :=
  reflTransGen_foldl st fun e he st =>
    (capabilityStep_renames filepath st e).mono fun _ _ h => ⟨e, he, h⟩

/-- The capability loop only renames quoted names of the table. -/
theorem capabilities_renames (filepath : String) {l : List (String × List String)}
    (hl : ∀ e ∈ l, e ∈ capabilitiesToUpdate) (st : Rewrite) :
    ReflTransGen RenameStep st.contents (l.foldl (capabilityStep filepath) st).contents :=
  (capabilities_renames_in filepath l st).mono fun _ _ ⟨e, he, h⟩ => ⟨e, hl e he, h⟩

end Runs

/-! ## The name of the file

`filepath` only appears in the printed lines: the text each step writes depends on the text it
reads and nothing else, so the text `update_appium_capabilities` writes does not depend on the
name it is given. -/

section Filepath

/-- A loop whose every step writes a text that depends only on the text it reads. -/
theorem foldl_contents_congr {β : Type} {f g : Rewrite → β → Rewrite}
    (h : ∀ b (st st' : Rewrite), st.contents = st'.contents → (f st b).contents = (g st' b).contents) :
    ∀ (l : List β) {st st' : Rewrite}, st.contents = st'.contents →
      (l.foldl f st).contents = (l.foldl g st').contents
  | [], _, _, hc => hc
  | b :: l, _, _, hc => foldl_contents_congr h l (h b _ _ hc)

variable (filepath filepath' : String) {st st' : Rewrite} (hc : st.contents = st'.contents)
include hc

theorem removeUnusedOption_contents_congr (o v : String) :
    (removeUnusedOption filepath st o v).contents =
      (removeUnusedOption filepath' st' o v).contents := by
  simp only [removeUnusedOption, hc]
  split_ifs
  · rfl
  · rfl
  · exact hc

theorem scopeStep_contents_congr (k scope : String) :
    (scopeStep filepath k st scope).contents = (scopeStep filepath' k st' scope).contents := by
  unfold scopeStep
  split
  · simp only [hc]
    split_ifs <;> simp only [Rewrite.print, updateSingleCapability, hc]
  · exact hc

theorem capabilityStep_contents_congr (e : String × List String) :
    (capabilityStep filepath st e).contents = (capabilityStep filepath' st' e).contents := by
  unfold capabilityStep
  rw [hc]
  split_ifs
  · simp only [updateSingleCapability, hc]
  · exact foldl_contents_congr (fun sc _ _ h => scopeStep_contents_congr filepath filepath' h e.1 sc)
      e.2 hc
  · exact hc

end Filepath

/-- The text `update_appium_capabilities` writes does not depend on the file's name. -/
theorem updateAppiumCapabilities_contents_congr (filepath filepath' : String) (t : List Char) :
    (updateAppiumCapabilities filepath t).contents =
      (updateAppiumCapabilities filepath' t).contents :=
  foldl_contents_congr (fun e _ _ h => capabilityStep_contents_congr filepath filepath' h e) _
    (foldl_contents_congr (fun o _ _ h => foldl_contents_congr
      (fun v _ _ h' => removeUnusedOption_contents_congr filepath filepath' h' o.1 v) o.2 h) _ rfl)

/-! ## Quoted words that no rename creates

A rename puts `appium:` right after the opening quote of `"k"`.  A text that begins and ends
with a quote and holds no `"appium:k"` cannot reach into that insertion, so where it occurs
after a rename it occurred before (`RenameStable.infix_of_renames`).  Quoted names, two of them
sharing a quote, and a name prefixed twice are such texts, because every name of the table is
made of letters and digits. -/

section Insert

variable {ins k y : List Char} (hk : '"' ∉ ins ++ k)
include hk

theorem prefix_of_prefix_insert : ∀ (x Q : List Char), Q.getLast? = some '"' →
    ¬('"' :: (ins ++ k) ++ ['"']) <:+: Q →
    Q <+: x ++ '"' :: (ins ++ k ++ '"' :: y) → Q <+: x ++ '"' :: (k ++ '"' :: y)
  | _, [], _, _, _ => List.nil_prefix
  | [], q :: v, hQ, hR, h => by
    obtain ⟨rfl, hv⟩ := List.cons_prefix_cons.mp h
    have hw : (ins ++ k) ++ ['"'] <+: (ins ++ k) ++ '"' :: y := ⟨y, by simp⟩
    rcases List.prefix_or_prefix_of_prefix hv hw with hv' | hv'
    · rcases List.prefix_concat_iff.mp hv' with rfl | hv'
      · exact absurd (List.infix_refl _) hR
      · obtain _ | ⟨d, v⟩ := v
        · exact ⟨k ++ '"' :: y, rfl⟩
        · exact absurd (hv'.subset (List.mem_of_getLast?_eq_some (by simpa using hQ))) hk
    · exact absurd ((List.prefix_cons_inj '"').mpr hv').isInfix hR
  | d :: x, q :: Q, hQ, hR, h => by
    obtain ⟨rfl, hQ'⟩ := List.cons_prefix_cons.mp h
    obtain _ | ⟨b, l⟩ := Q
    · exact List.cons_prefix_cons.mpr ⟨rfl, List.nil_prefix⟩
    · exact List.cons_prefix_cons.mpr ⟨rfl, prefix_of_prefix_insert x _ (by simpa using hQ)
        (fun h' => hR (List.infix_cons h')) hQ'⟩

theorem infix_of_infix_insert {Q : List Char} (hQ₀ : Q.head? = some '"')
    (hQ : Q.getLast? = some '"') (hR : ¬('"' :: (ins ++ k) ++ ['"']) <:+: Q) (x : List Char)
    (h : Q <:+: x ++ '"' :: (ins ++ k ++ '"' :: y)) : Q <:+: x ++ '"' :: (k ++ '"' :: y) := by
  induction x with
  | nil =>
    rcases List.infix_cons_iff.mp h with h | h
    · exact (prefix_of_prefix_insert hk [] Q hQ hR h).isInfix
    · obtain ⟨Q, rfl⟩ := List.head?_eq_some_iff.mp hQ₀
      exact (cons_infix_of_infix_append hk h).trans
        (List.infix_cons (List.suffix_append k _).isInfix)
  | cons d x ih =>
    rcases List.infix_cons_iff.mp h with h | h
    · exact (prefix_of_prefix_insert hk (d :: x) Q hQ hR h).isInfix
    · exact List.infix_cons (ih h)

end Insert

set_option maxRecDepth 100000 in
/-- Every capability name is made of letters and digits. -/
theorem capabilitiesToUpdate_alnum : ∀ e ∈ capabilitiesToUpdate, ∀ c ∈ e.1.toList, c.isAlphanum :=
  by decide

theorem quote_not_mem {e : String × List String} (he : e ∈ capabilitiesToUpdate) : '"' ∉ e.1.toList :=
  fun h => absurd (capabilitiesToUpdate_alnum e he _ h) (by decide)

theorem colon_not_mem {e : String × List String} (he : e ∈ capabilitiesToUpdate) : ':' ∉ e.1.toList :=
  fun h => absurd (capabilitiesToUpdate_alnum e he _ h) (by decide)

/-- A text that begins and ends with a quote and holds the renamed form of no name: no rename
creates it. -/
structure RenameStable (Q : List Char) : Prop where
  head : Q.head? = some '"'
  last : Q.getLast? = some '"'
  no_renamed : ∀ e ∈ capabilitiesToUpdate, ¬renamed e.1 <:+: Q

theorem RenameStable.infix_of_step {Q a b : List Char} (hQ : RenameStable Q) (h : RenameStep a b)
    (hb : Q <:+: b) : Q <:+: a := by
  obtain ⟨e, he, x, y, rfl, rfl⟩ := h
  have hk : '"' ∉ "appium:".toList ++ e.1.toList := by
    simpa [List.mem_append] using quote_not_mem he
  have := infix_of_infix_insert hk hQ.head hQ.last (hQ.no_renamed e he) x (y := y)
    (by simpa [renamed_eq] using hb)
  simpa [quoted_eq] using this

theorem RenameStable.infix_of_renames {Q a b : List Char} (hQ : RenameStable Q)
    (h : ReflTransGen RenameStep a b) : Q <:+: b → Q <:+: a := by
  induction h with
  | refl => exact id
  | tail _ hst ih => exact fun hc => ih (hQ.infix_of_step hst hc)

/-- `"appium:"`, which every renamed name holds. -/
theorem appium_infix_renamed (k : String) : "appium:".toList <:+: renamed k :=
  ⟨['"'], k.toList ++ ['"'], rfl⟩

theorem not_appium_infix_of_colon {t : List Char} (ht : ':' ∉ t) : ¬"appium:".toList <:+: t :=
  fun h => ht (h.subset (by decide))

theorem not_appium_infix_quote_cons {t : List Char} (ht : ¬"appium:".toList <:+: t) :
    ¬"appium:".toList <:+: '"' :: t :=
  fun h => (List.infix_cons_iff.mp h).elim (fun h => absurd (List.cons_prefix_cons.mp h).1 (by decide)) ht

theorem not_appium_infix_append_quote {k t : List Char} (hk : ':' ∉ k)
    (ht : ¬"appium:".toList <:+: t) : ¬"appium:".toList <:+: k ++ '"' :: t :=
  fun h => (infix_append_cons_of_not_mem h (by decide)).elim (not_appium_infix_of_colon hk) ht

theorem RenameStable.of_not_appium {Q : List Char} (h₀ : Q.head? = some '"')
    (h₁ : Q.getLast? = some '"') (h : ¬"appium:".toList <:+: Q) : RenameStable Q :=
  ⟨h₀, h₁, fun e _ he => h ((appium_infix_renamed e.1).trans he)⟩

section Stable

variable {e : String × List String} (he : e ∈ capabilitiesToUpdate)
include he

theorem quoted_stable : RenameStable (quoted e.1) :=
  .of_not_appium rfl (by simp [quoted_eq, List.getLast?_cons]) (not_appium_infix_quote_cons
    (not_appium_infix_append_quote (colon_not_mem he) (not_appium_infix_of_colon (List.not_mem_nil _))))

theorem doubled_stable : RenameStable (doubled e.1) :=
  doubled_eq e.1 ▸ .of_not_appium rfl (by simp [List.getLast?_cons]) (not_appium_infix_quote_cons
    (not_appium_infix_append_quote (colon_not_mem he) (not_appium_infix_append_quote
      (colon_not_mem he) (not_appium_infix_of_colon (List.not_mem_nil _)))))

theorem renamed_appium_stable : RenameStable (renamed ("appium:" ++ e.1)) := by
  refine ⟨rfl, by simp [renamed_eq, List.getLast?_cons], fun e' he' h => colon_not_mem he' ?_⟩
  have hv : '"' ∉ "appium:".toList ++ ("appium:" ++ e.1).toList := by
    simpa using quote_not_mem he
  have := eq_of_infix_cons_append hv (by simpa only [renamed_eq, List.cons_append] using h)
  simp at this
  simp [this]

end Stable

/-! ## The rename of one name

Of the copies of `"k"` that `str.replace` reads from left to right, one is skipped only when
it begins at the closing quote of the copy just renamed. -/

section Rename

variable {k : String}

theorem strReplace_quoted_append (r : List Char) :
    strReplace (quoted k) (renamed k) (quoted k ++ r) =
      '"' :: ("appium:".toList ++ k.toList ++ '"' :: strReplace (quoted k) (renamed k) r) := by
  simp [strReplace_append (quoted_ne_nil _), renamed_eq]

/-- Where the result of a rename begins with a text up to its first quote, so does the
text renamed. -/
theorem prefix_of_prefix_strReplace (w : List Char) (hw : '"' ∉ w) :
    ∀ t, w ++ ['"'] <+: strReplace (quoted k) (renamed k) t → w ++ ['"'] <+: t := by
  intro t h
  by_cases hp : quoted k <+: t
  · -- the text begins with the quoted name, and the result with its renamed form
    obtain ⟨r, rfl⟩ := hp
    rw [strReplace_quoted_append] at h
    cases w with
    | nil => exact ⟨k.toList ++ ['"'] ++ r, rfl⟩
    | cons c w =>
      obtain ⟨rfl, -⟩ := List.cons_prefix_cons.mp h
      simp at hw
  · -- the first character is copied
    obtain _ | ⟨d, t⟩ := t
    · exact absurd h.length_le (by simp [strReplace_nil (quoted_ne_nil _)])
    rw [strReplace_cons (quoted_ne_nil _) hp] at h
    cases w with
    | nil =>
      obtain ⟨rfl, -⟩ := List.cons_prefix_cons.mp h
      exact ⟨t, rfl⟩
    | cons c w =>
      obtain ⟨hcd, h'⟩ := List.cons_prefix_cons.mp h
      exact List.cons_prefix_cons.mpr
        ⟨hcd, prefix_of_prefix_strReplace w (fun x => hw (.tail _ x)) t h'⟩

/-- After `str.replace` of `"k"` by `"appium:k"`, a quoted `k` is left only where the text held
two copies sharing a quote. -/
theorem doubled_infix_of_infix_strReplace (hk : '"' ∉ k.toList) :
    ∀ s, quoted k <:+: strReplace (quoted k) (renamed k) s → doubled k <:+: s
  | s, h => by
    have hins : '"' ∉ "appium:".toList ++ k.toList := by simpa using hk
    by_cases hp : quoted k <+: s
    · obtain ⟨r, rfl⟩ := hp
      rw [strReplace_quoted_append] at h
      rcases List.infix_cons_iff.mp h with h | h
      · have := congrArg List.length (eq_of_prefix_append_cons (List.cons_prefix_cons.mp h).2 hk hins)
        simp at this
        omega
      · rcases List.infix_cons_iff.mp (cons_infix_of_infix_append hins h) with h | h
        · exact ((List.prefix_append_right_inj (quoted k)).mpr
            (prefix_of_prefix_strReplace _ hk r (List.cons_prefix_cons.mp h).2)).isInfix
        · have hr : r.length < (quoted k ++ r).length := by simp [quoted_eq]; omega
          exact (doubled_infix_of_infix_strReplace hk r h).trans (List.suffix_append _ _).isInfix
    · match s with
      | [] => exact absurd (List.infix_nil.mp (by simpa [strReplace_nil (quoted_ne_nil _)] using h)) (quoted_ne_nil _)
      | c :: s =>
        rw [strReplace_cons (quoted_ne_nil _) hp] at h
        rcases List.infix_cons_iff.mp h with h | h
        · obtain ⟨hc, h'⟩ := List.cons_prefix_cons.mp h
          exact absurd (List.cons_prefix_cons.mpr ⟨hc, prefix_of_prefix_strReplace _ hk s h'⟩) hp
        · exact List.infix_cons (doubled_infix_of_infix_strReplace hk s h)
termination_by s => s.length

end Rename

/-! ## The obsolete pairs the first loop deletes

Deleting a copy joins the text before it to the text after it.  Where no copy of an obsolete
pair directly follows a nonempty proper beginning of one (`Nested`), no deletion joins a new
copy, and `str.replace` leaves no copy of what it deletes; so on a text that holds at most one
spacing of each pair (`OneSpacing`) the first loop deletes every copy of every pair
(`removeUnusedOptions_clears`).  No quote of a pair is followed by `a`, so no rename of the
capability loop, which puts `appium:` after a quote, creates one
(`infix_of_renames_pair`). -/

/-- The `(option, value)` pairs the first loop walks, in order. -/
def optionValues : List (String × String) :=
  unusedApplauseOptions.flatMap fun o => o.2.map fun v => (o.1, v)

/-- The obsolete pairs, each in both spacings. -/
def obsoletePairs : List (List Char) :=
  optionValues.flatMap fun ov => [optionPair ov.1 ov.2, optionPairSpaced ov.1 ov.2]

/-- The first loop, one `(option, value)` after the other. -/
theorem removeUnusedOptions_eq (filepath : String) (st : Rewrite) :
    removeUnusedOptions filepath st =
      optionValues.foldl (fun st ov => removeUnusedOption filepath st ov.1 ov.2) st := rfl

/-- Some copy of an obsolete pair directly follows a nonempty proper beginning of one, so that
deleting the copy would join a new one. -/
def Nested (s : List Char) : Prop :=
  ∃ Q ∈ obsoletePairs, ∃ Q' ∈ obsoletePairs, ∃ c ∈ Q'.inits, c ≠ [] ∧ c ≠ Q' ∧ c ++ Q <:+: s

instance (s : List Char) : Decidable (Nested s) :=
  inferInstanceAs (Decidable (∃ Q ∈ obsoletePairs, _))

theorem Nested.mono {s s' : List Char} (h : Nested s) (hs : s <:+: s') : Nested s' :=
  let ⟨Q, hQ, Q', hQ', c, hc, hc₀, hcQ', h⟩ := h
  ⟨Q, hQ, Q', hQ', c, hc, hc₀, hcQ', h.trans hs⟩

/-- The text holds at most one spacing of each obsolete pair. -/
def OneSpacing (s : List Char) : Prop :=
  ∀ ov ∈ optionValues, ¬(optionPair ov.1 ov.2 <:+: s ∧ optionPairSpaced ov.1 ov.2 <:+: s)

instance (s : List Char) : Decidable (OneSpacing s) :=
  inferInstanceAs (Decidable (∀ ov ∈ optionValues, _))

theorem optionPair_mem {ov : String × String} (h : ov ∈ optionValues) :
    optionPair ov.1 ov.2 ∈ obsoletePairs ∧ optionPairSpaced ov.1 ov.2 ∈ obsoletePairs :=
  ⟨List.mem_flatMap.mpr ⟨ov, h, by simp⟩, List.mem_flatMap.mpr ⟨ov, h, by simp⟩⟩

section Delete

variable {Q x y : List Char} (hQ : Q ∈ obsoletePairs) (hn : ¬Nested (x ++ Q ++ y))
include hQ hn

/-- Deleting one copy of a pair from a text where none is nested creates no copy of a pair. -/
theorem infix_of_delete {C : List Char} (hC : C ∈ obsoletePairs) (h : C <:+: x ++ y) :
    C <:+: x ++ Q ++ y := by
  rcases infix_append_split h with h | h | ⟨w₁, w₂, rfl, h₁, h₂, ⟨t, rfl⟩, -⟩
  · exact h.trans ⟨[], Q ++ y, by simp⟩
  · exact h.trans ⟨x ++ Q, [], by simp⟩
  · refine absurd ⟨Q, hQ, _, hC, w₁, (List.mem_inits _ _).mpr (List.prefix_append _ _), h₁, ?_,
      t, y, by simp⟩ hn
    exact fun e => h₂ (List.append_right_eq_self.mp e.symm)

/-- Deleting one copy of a pair from a text where none is nested leaves none nested. -/
theorem not_nested_of_delete : ¬Nested (x ++ y) := by
  rintro ⟨Q₁, hQ₁, Q', hQ', c, hc, hc₀, hcQ', h⟩
  have hc' := (List.mem_inits _ _).mp hc
  rcases infix_append_split h with h | h | ⟨w₁, w₂, he, h₁, h₂, ⟨t, rfl⟩, -⟩
  · exact hn ⟨Q₁, hQ₁, Q', hQ', c, hc, hc₀, hcQ', h.trans ⟨[], Q ++ y, by simp⟩⟩
  · exact hn ⟨Q₁, hQ₁, Q', hQ', c, hc, hc₀, hcQ', h.trans ⟨x ++ Q, [], by simp⟩⟩
  · have hw : w₁ <+: c ++ Q₁ := he ▸ List.prefix_append w₁ w₂
    by_cases hwc : w₁ <+: c
    · -- the part before the seam is a beginning of `Q'`
      refine hn ⟨Q, hQ, Q', hQ', w₁, (List.mem_inits _ _).mpr (hwc.trans hc'), h₁, fun e => hcQ' ?_,
        t, y, by simp⟩
      exact hc'.eq_of_length (le_antisymm hc'.length_le (e ▸ hwc.length_le))
    · -- the part before the seam holds `c` and a beginning of `Q₁`
      obtain ⟨q, rfl⟩ := (List.prefix_or_prefix_of_prefix hw (List.prefix_append c Q₁)).resolve_left hwc
      have hq : q <+: Q₁ := (List.prefix_append_right_inj c).mp hw
      have hq₀ : q ≠ [] := fun e => hwc (by simp [e])
      have hqQ : q ≠ Q₁ := fun e => h₂ (by simpa [e] using he)
      exact hn ⟨Q, hQ, Q₁, hQ₁, q, (List.mem_inits _ _).mpr hq, hq₀, hqQ, t ++ c, y, by simp⟩

end Delete

/-- A run of deletions of one pair from a text where none is nested creates no copy of a pair
and leaves none nested. -/
theorem delete_run {Q : List Char} (hQ : Q ∈ obsoletePairs) {a b : List Char}
    (h : ReflTransGen (ReplaceOnce Q []) a b) (hn : ¬Nested a) :
    ¬Nested b ∧ ∀ C ∈ obsoletePairs, C <:+: b → C <:+: a := by
  induction h with
  | refl => exact ⟨hn, fun _ _ => id⟩
  | tail _ hbc ih =>
    obtain ⟨x, y, rfl, rfl⟩ := hbc
    rw [List.append_nil]
    exact ⟨not_nested_of_delete hQ ih.1, fun C hC h' => ih.2 C hC (infix_of_delete hQ ih.1 hC h')⟩

/-- A beginning of what `str.replace(old, "")` leaves is a beginning of the text, or runs past
the text's part before its first copy of `old`. -/
theorem prefix_strReplace_nil {old : List Char} (hold : old ≠ []) :
    ∀ s w, w <+: strReplace old [] s →
      w <+: s ∨ ∃ u r, s = u ++ old ++ r ∧ u <+: w ∧ u.length < w.length
  | s, w, h => by
    by_cases hp : old <+: s
    · obtain ⟨r, rfl⟩ := hp
      rcases eq_or_ne w [] with rfl | hw
      · exact .inl List.nil_prefix
      · exact .inr ⟨[], r, rfl, List.nil_prefix, List.length_pos.mpr hw⟩
    · match s, w with
      | [], w => exact .inl (by simpa [strReplace_nil hold] using h)
      | _ :: _, [] => exact .inl List.nil_prefix
      | c :: s, d :: w =>
        rw [strReplace_cons hold hp, List.cons_prefix_cons] at h
        obtain ⟨rfl, h⟩ := h
        have hs : s.length < (d :: s).length := by simp
        rcases prefix_strReplace_nil hold s w h with h | ⟨u, r, rfl, hu, hl⟩
        · exact .inl (List.cons_prefix_cons.mpr ⟨rfl, h⟩)
        · exact .inr ⟨d :: u, r, rfl, List.cons_prefix_cons.mpr ⟨rfl, hu⟩, by simpa using hl⟩
termination_by s => s.length

/-- `str.replace(Q, "")` leaves no copy of a pair `Q` in a text where none is nested. -/
theorem not_infix_strReplace_self {Q : List Char} (hQ : Q ∈ obsoletePairs) (hQ₀ : Q ≠ []) :
    ∀ s, ¬Nested s → ¬Q <:+: strReplace Q [] s
  | s, hn, h => by
    by_cases hp : Q <+: s
    · obtain ⟨r, rfl⟩ := hp
      rw [strReplace_append hQ₀, List.nil_append] at h
      have hr : r.length < (Q ++ r).length := by simp [List.length_pos.mpr hQ₀]
      exact not_infix_strReplace_self hQ hQ₀ r (fun hr' => hn (hr'.mono ⟨Q, [], by simp⟩)) h
    · match s with
      | [] => exact hQ₀ (List.infix_nil.mp (by simpa [strReplace_nil hQ₀] using h))
      | c :: s =>
        rw [strReplace_cons hQ₀ hp] at h
        have hn' : ¬Nested s := fun h' => hn (h'.mono (List.suffix_cons c s).isInfix)
        rcases List.infix_cons_iff.mp h with h | h
        · -- a copy at the front: it runs past the part of `s` before the first deleted copy
          obtain ⟨q, rfl⟩ : ∃ q, Q = c :: q := by
            obtain ⟨d, q, rfl⟩ := List.exists_cons_of_ne_nil hQ₀
            exact ⟨q, by rw [(List.cons_prefix_cons.mp h).1]⟩
          rcases prefix_strReplace_nil hQ₀ s q (List.cons_prefix_cons.mp h).2 with h' | ⟨u, r, rfl, hu, hl⟩
          · exact hp (List.cons_prefix_cons.mpr ⟨rfl, h'⟩)
          · refine hn ⟨c :: q, hQ, c :: q, hQ, c :: u, (List.mem_inits _ _).mpr
              (List.cons_prefix_cons.mpr ⟨rfl, hu⟩), List.cons_ne_nil _ _, ?_, [], r, by simp⟩
            intro e
            simp only [List.cons.injEq, true_and] at e
            exact absurd (e ▸ hl) (lt_irrefl _)
        · exact not_infix_strReplace_self hQ hQ₀ s hn' h
termination_by s => s.length

/-- One `(option, value)` of the first loop, on a text where no pair is nested and that holds
at most one spacing of this pair: afterwards the text holds neither spacing, still has no
nested pair, and holds no pair it did not hold before. -/
theorem removeUnusedOption_clears (filepath : String) (st : Rewrite) {ov : String × String}
    (hov : ov ∈ optionValues) (hn : ¬Nested st.contents)
    (h1 : ¬(optionPair ov.1 ov.2 <:+: st.contents ∧ optionPairSpaced ov.1 ov.2 <:+: st.contents)) :
    ¬Nested (removeUnusedOption filepath st ov.1 ov.2).contents ∧
      (∀ C ∈ obsoletePairs, C <:+: (removeUnusedOption filepath st ov.1 ov.2).contents →
        C <:+: st.contents) ∧
      ¬optionPair ov.1 ov.2 <:+: (removeUnusedOption filepath st ov.1 ov.2).contents ∧
      ¬optionPairSpaced ov.1 ov.2 <:+: (removeUnusedOption filepath st ov.1 ov.2).contents := by
  obtain ⟨hP, hS⟩ := optionPair_mem hov
  unfold removeUnusedOption
  split_ifs with h₁ h₂
  · have hrun := delete_run hP (strReplace_replaceOnce (List.cons_ne_nil _ _) _) hn
    exact ⟨hrun.1, hrun.2, not_infix_strReplace_self hP (List.cons_ne_nil _ _) _ hn,
      fun h => h1 ⟨h₁, hrun.2 _ hS h⟩⟩
  · have hrun := delete_run hS (strReplace_replaceOnce (List.cons_ne_nil _ _) _) hn
    exact ⟨hrun.1, hrun.2, fun h => h₁ (hrun.2 _ hP h),
      not_infix_strReplace_self hS (List.cons_ne_nil _ _) _ hn⟩
  · exact ⟨hn, fun _ _ => id, h₁, h₂⟩

/-- A run of the first loop over `(option, value)` pairs, on a text where no pair is nested and
that holds at most one spacing of each of them, leaves neither spacing of any. -/
theorem foldl_removeUnusedOption_clears (filepath : String) :
    ∀ (l : List (String × String)) (st : Rewrite), (∀ ov ∈ l, ov ∈ optionValues) →
      ¬Nested st.contents →
      (∀ ov ∈ l, ¬(optionPair ov.1 ov.2 <:+: st.contents ∧ optionPairSpaced ov.1 ov.2 <:+: st.contents)) →
      (∀ C ∈ obsoletePairs, C <:+: (l.foldl (fun st ov => removeUnusedOption filepath st ov.1 ov.2) st).contents →
        C <:+: st.contents) ∧
      ∀ ov ∈ l, ¬optionPair ov.1 ov.2 <:+: (l.foldl (fun st ov => removeUnusedOption filepath st ov.1 ov.2) st).contents ∧
        ¬optionPairSpaced ov.1 ov.2 <:+: (l.foldl (fun st ov => removeUnusedOption filepath st ov.1 ov.2) st).contents
  | [], _, _, _, _ => ⟨fun _ _ => id, nofun⟩
  | ov :: l, st, hl, hn, h1 => by
    obtain ⟨hn', hsub, hP, hS⟩ := removeUnusedOption_clears filepath st (hl ov (.head _)) hn (h1 ov (.head _))
    obtain ⟨hsub', hclear⟩ := foldl_removeUnusedOption_clears filepath l _ (fun o h => hl o (.tail _ h)) hn'
      fun o ho h => h1 o (.tail _ ho) ⟨hsub _ (optionPair_mem (hl o (.tail _ ho))).1 h.1,
        hsub _ (optionPair_mem (hl o (.tail _ ho))).2 h.2⟩
    refine ⟨fun C hC h => hsub C hC (hsub' C hC h), fun o ho => ?_⟩
    rcases List.mem_cons.mp ho with rfl | ho
    · exact ⟨fun h => hP (hsub' _ (optionPair_mem (hl _ (.head _))).1 h),
        fun h => hS (hsub' _ (optionPair_mem (hl _ (.head _))).2 h)⟩
    · exact hclear o ho

/-- On a text that holds at most one spacing of each obsolete pair and in which no copy of a
pair directly follows the beginning of one, the first loop deletes every copy of every pair. -/
theorem removeUnusedOptions_clears (filepath : String) {t : List Char} (h1 : OneSpacing t)
    (hn : ¬Nested t) : ∀ Q ∈ obsoletePairs, ¬Q <:+: (removeUnusedOptions filepath ⟨t, []⟩).contents := by
  intro Q hQ
  obtain ⟨ov, hov, hQ'⟩ := List.mem_flatMap.mp hQ
  have := (foldl_removeUnusedOption_clears filepath optionValues ⟨t, []⟩ (fun _ h => h) hn h1).2 ov hov
  rw [removeUnusedOptions_eq]
  rcases List.mem_pair.mp hQ' with rfl | rfl
  · exact this.1
  · exact this.2

/-! ### Renames create no pair -/

section Insert

variable {i : Char} {n z : List Char}

/-- A text in which no quote is followed by `i`, and that begins a text with `i :: n` inserted
after a quote, begins the text without the insertion. -/
theorem prefix_of_prefix_insert_head :
    ∀ x Q : List Char, ¬['"', i] <:+: Q → Q <+: x ++ '"' :: (i :: n ++ z) → Q <+: x ++ '"' :: z
  | _, [], _, _ => List.nil_prefix
  | [], [_], _, h => List.cons_prefix_cons.mpr ⟨(List.cons_prefix_cons.mp h).1, List.nil_prefix⟩
  | [], q :: q' :: Q, hi, h => by
    obtain ⟨rfl, h'⟩ := List.cons_prefix_cons.mp h
    obtain ⟨rfl, -⟩ := List.cons_prefix_cons.mp h'
    exact absurd ⟨[], Q, rfl⟩ hi
  | d :: x, q :: Q, hi, h => by
    obtain ⟨rfl, h'⟩ := List.cons_prefix_cons.mp h
    exact List.cons_prefix_cons.mpr
      ⟨rfl, prefix_of_prefix_insert_head x Q (fun h'' => hi (List.infix_cons h'')) h'⟩

/-- A text that begins with a quote and in which no quote is followed by `i` occurs in a text
with `i :: n` inserted after a quote only where it occurs in the text without the insertion. -/
theorem infix_of_infix_insert_head (hq : '"' ∉ i :: n) :
    ∀ (x : List Char) {Q : List Char}, Q.head? = some '"' → ¬['"', i] <:+: Q →
      Q <:+: x ++ '"' :: (i :: n ++ z) → Q <:+: x ++ '"' :: z
  | [], Q, h0, hi, h => by
    rcases List.infix_cons_iff.mp h with h | h
    · exact (prefix_of_prefix_insert_head [] Q hi h).isInfix
    · obtain ⟨Q', rfl⟩ := List.head?_eq_some_iff.mp h0
      exact List.infix_cons (cons_infix_of_infix_append (w := i :: n) hq h)
  | d :: x, Q, h0, hi, h => by
    rcases List.infix_cons_iff.mp h with h | h
    · exact (prefix_of_prefix_insert_head (d :: x) Q hi h).isInfix
    · exact List.infix_cons (infix_of_infix_insert_head hq x h0 hi h)

end Insert

/-- Every obsolete pair begins with a quote, and none of its quotes is followed by `a`. -/
theorem obsoletePairs_quotes : ∀ Q ∈ obsoletePairs, Q.head? = some '"' ∧ ¬['"', 'a'] <:+: Q := by
  decide

/-- No rename creates a copy of an obsolete pair. -/
theorem infix_of_renameStep_pair {Q a b : List Char} (hQ : Q ∈ obsoletePairs) (h : RenameStep a b)
    (hb : Q <:+: b) : Q <:+: a := by
  obtain ⟨e, -, x, y, rfl, rfl⟩ := h
  have hb' : Q <:+: x ++ '"' :: ('a' :: "ppium:".toList ++ (e.1.toList ++ '"' :: y)) := by
    simpa [renamed_eq] using hb
  simpa [quoted_eq] using infix_of_infix_insert_head (by decide) x (obsoletePairs_quotes Q hQ).1
    (obsoletePairs_quotes Q hQ).2 hb'

theorem infix_of_renames_pair {Q a b : List Char} (hQ : Q ∈ obsoletePairs)
    (h : ReflTransGen RenameStep a b) : Q <:+: b → Q <:+: a := by
  induction h with
  | refl => exact id
  | tail _ hst ih => exact fun hc => ih (infix_of_renameStep_pair hQ hst hc)

/-! ## The scope test of a capability

A capability whose scopes do not hold `all` is renamed by each scope whose test passes on the
text at that moment (`scopeStep_contents_eq`).  The tests read the lowered text for words that
no rename creates or breaks (`RenameBlind`), so they give the same answer on the text the first
loop leaves (`scopeHolds_renames`): the written text holds `"appium:deviceName"` only where a
scope of `deviceName` passes on that text (`renamed_infix_of_scoped`), and where one passes no
quoted `"deviceName"` is left but where two copies share a quote (`doubled_infix_of_quoted`). -/

/-- The test a scope of a capability passes on the text: the lowered text holds the scope's
driver type, and its driver scope unless that is `all`.  A scope that does not split in two
parts at `_` fails. -/
def scopeHolds (s : List Char) (scope : String) : Bool :=
  match scope.toList.splitOn '_' with
  | [driverType, driverScope] =>
    decide (driverType <:+: lower s) && (driverScope == "all".toList || decide (driverScope <:+: lower s))
  | _ => false

theorem scopeHolds_of_splitOn {s : List Char} {scope : String} {d sc : List Char}
    (h : scope.toList.splitOn '_' = [d, sc]) :
    scopeHolds s scope =
      (decide (d <:+: lower s) && (sc == "all".toList || decide (sc <:+: lower s))) := by
  simp only [scopeHolds, h]

theorem scopeHolds_of_ne {s : List Char} {scope : String}
    (h : ∀ d sc, scope.toList.splitOn '_' = [d, sc] → False) : scopeHolds s scope = false := by
  unfold scopeHolds
  split
  · next d sc he => exact absurd he (h d sc)
  · rfl

/-- A scope renames the capability exactly when its test passes. -/
theorem scopeStep_contents_eq (filepath k : String) (st : Rewrite) (scope : String) :
    (scopeStep filepath k st scope).contents =
      if scopeHolds st.contents scope then strReplace (quoted k) (renamed k) st.contents
      else st.contents := by
  unfold scopeStep
  split
  · next d sc h =>
    rw [scopeHolds_of_splitOn h]
    split_ifs <;> simp_all [Rewrite.print, updateSingleCapability]
  · next hne => rw [scopeHolds_of_ne hne]; rfl

/-- A word that neither begins nor is begun by any nonempty tail of `n` occurs in `n ++ Z`
only within `Z`. -/
theorem infix_of_infix_append_tails {p n Z : List Char}
    (hp : ∀ σ ∈ n.tails, σ ≠ [] → ¬σ <+: p ∧ ¬p <+: σ) (h : p <:+: n ++ Z) : p <:+: Z := by
  induction n with
  | nil => exact h
  | cons c n ih =>
    rcases List.infix_cons_iff.mp h with h | h
    · have hσ := hp (c :: n) (List.mem_cons_self _ _) (List.cons_ne_nil _ _)
      rcases List.prefix_or_prefix_of_prefix h (List.prefix_append (c :: n) Z) with h' | h'
      · exact absurd h' hσ.2
      · exact absurd h' hσ.1
    · exact ih (fun σ hσ => hp σ (List.mem_cons_of_mem _ hσ)) h

/-- A word without quotes that neither begins nor is begun by a nonempty tail of `n` occurs in
a text with `n` inserted after a quote exactly where it occurs without the insertion. -/
theorem infix_insert_iff {p X n Z : List Char} (hq : '"' ∉ p)
    (hp : ∀ σ ∈ n.tails, σ ≠ [] → ¬σ <+: p ∧ ¬p <+: σ) :
    p <:+: X ++ '"' :: (n ++ Z) ↔ p <:+: X ++ '"' :: Z := by
  constructor
  · intro h
    rcases infix_append_cons_of_not_mem h hq with h | h
    · exact h.trans ⟨[], _, rfl⟩
    · exact (infix_of_infix_append_tails hp h).trans ⟨X ++ ['"'], [], by simp⟩
  · intro h
    rcases infix_append_cons_of_not_mem h hq with h | h
    · exact h.trans ⟨[], _, rfl⟩
    · exact h.trans ⟨X ++ '"' :: n, [], by simp⟩

/-- A word that no rename creates or breaks in the lowered text: it has no quote, and no
nonempty tail of `appium:` begins it or is begun by it. -/
def RenameBlind (p : List Char) : Prop :=
  '"' ∉ p ∧ ∀ σ ∈ "appium:".toList.tails, σ ≠ [] → ¬σ <+: p ∧ ¬p <+: σ

instance (p : List Char) : Decidable (RenameBlind p) := inferInstanceAs (Decidable (_ ∧ _))

theorem RenameBlind.infix_lower_iff {p : List Char} (hp : RenameBlind p)
    {l : List (String × List String)} {a b : List Char} (h : RenameStepIn l a b) :
    p <:+: lower b ↔ p <:+: lower a := by
  obtain ⟨e, -, x, y, rfl, rfl⟩ := h
  have hq : Char.toLower '"' = '"' := rfl
  have happ : "appium:".toList.map Char.toLower = "appium:".toList := by decide
  simp only [lower, renamed_eq, quoted_eq, List.map_append, List.map_cons, hq, happ,
    List.cons_append, List.append_assoc]
  exact infix_insert_iff hp.1 hp.2

theorem RenameBlind.infix_lower_renames_iff {p : List Char} (hp : RenameBlind p)
    {l : List (String × List String)} {a b : List Char} (h : ReflTransGen (RenameStepIn l) a b) :
    p <:+: lower b ↔ p <:+: lower a := by
  induction h with
  | refl => rfl
  | tail _ hst ih => exact (hp.infix_lower_iff hst).trans ih

/-- A scope whose test reads only words that no rename creates or breaks. -/
def scopeBlind (scope : String) : Bool :=
  match scope.toList.splitOn '_' with
  | [driverType, driverScope] =>
    decide (RenameBlind driverType) && (driverScope == "all".toList || decide (RenameBlind driverScope))
  | _ => true

/-- Renames keep the test of a scope that reads only words they cannot create or break. -/
theorem scopeHolds_renames {scope : String} (hs : scopeBlind scope = true)
    {l : List (String × List String)} {a b : List Char} (h : ReflTransGen (RenameStepIn l) a b) :
    scopeHolds b scope = scopeHolds a scope := by
  by_cases hx : ∃ d sc, scope.toList.splitOn '_' = [d, sc]
  · obtain ⟨d, sc, hsplit⟩ := hx
    simp only [scopeBlind, hsplit, Bool.and_eq_true, Bool.or_eq_true, decide_eq_true_eq,
      beq_iff_eq] at hs
    rw [scopeHolds_of_splitOn hsplit, scopeHolds_of_splitOn hsplit]
    simp only [hs.1.infix_lower_renames_iff h]
    rcases hs.2 with he | hb
    · simp [he]
    · simp only [hb.infix_lower_renames_iff h]
  · rw [scopeHolds_of_ne fun d sc h => hx ⟨d, sc, h⟩, scopeHolds_of_ne fun d sc h => hx ⟨d, sc, h⟩]

/-! ### The loop over the scopes of one capability -/

section Scopes

variable (filepath : String) {k : String}

/-- Scopes whose tests all fail leave the text alone. -/
theorem foldl_scopeStep_of_not :
    ∀ (scs : List String) (st : Rewrite), (∀ sc ∈ scs, scopeHolds st.contents sc = false) →
      (scs.foldl (scopeStep filepath k) st).contents = st.contents
  | [], _, _ => rfl
  | sc :: scs, st, h => by
    have hc : (scopeStep filepath k st sc).contents = st.contents := by
      rw [scopeStep_contents_eq, h sc (.head _), if_neg Bool.false_ne_true]
    rw [List.foldl_cons, foldl_scopeStep_of_not scs _ (fun sc' h' => hc ▸ h sc' (.tail _ h')), hc]

/-- After the scopes of a capability, a quoted copy of its name was there before. -/
theorem quoted_infix_of_foldl_scopeStep (hk : '"' ∉ k.toList) :
    ∀ (scs : List String) (st : Rewrite),
      quoted k <:+: (scs.foldl (scopeStep filepath k) st).contents → quoted k <:+: st.contents
  | [], _, h => h
  | sc :: scs, st, h => by
    have h' := quoted_infix_of_foldl_scopeStep hk scs _ h
    rw [scopeStep_contents_eq] at h'
    split_ifs at h'
    · exact (List.prefix_append _ _).isInfix.trans (doubled_infix_of_infix_strReplace hk _ h')
    · exact h'

/-- Scopes of which one passes leave a quoted copy of the name only where the text held two
copies sharing a quote. -/
theorem doubled_infix_of_foldl_scopeStep (hk : '"' ∉ k.toList) :
    ∀ (scs : List String) (st : Rewrite), (∃ sc ∈ scs, scopeHolds st.contents sc = true) →
      quoted k <:+: (scs.foldl (scopeStep filepath k) st).contents → doubled k <:+: st.contents
  | [], _, ⟨_, h, _⟩, _ => absurd h (List.not_mem_nil _)
  | sc :: scs, st, hex, h => by
    have h' := quoted_infix_of_foldl_scopeStep filepath hk scs _ h
    by_cases hsc : scopeHolds st.contents sc = true
    · rw [scopeStep_contents_eq, if_pos hsc] at h'
      exact doubled_infix_of_infix_strReplace hk _ h'
    · have hc : (scopeStep filepath k st sc).contents = st.contents := by
        rw [scopeStep_contents_eq, if_neg hsc]
      obtain ⟨sc', hsc', hh⟩ := hex
      rcases List.mem_cons.mp hsc' with rfl | hsc'
      · exact absurd hh hsc
      · exact hc ▸ doubled_infix_of_foldl_scopeStep hk scs _ ⟨sc', hsc', hc ▸ hh⟩ h

end Scopes

/-! ### Renames of other names -/

/-- A rename of a name other than `k` creates no copy of `"appium:k"`. -/
theorem renamed_infix_of_step {k : String} (hk : '"' ∉ k.toList) {l : List (String × List String)}
    (hl : ∀ e ∈ l, '"' ∉ e.1.toList ∧ e.1 ≠ k) {a b : List Char} (h : RenameStepIn l a b)
    (hb : renamed k <:+: b) : renamed k <:+: a := by
  obtain ⟨e, he, x, y, rfl, rfl⟩ := h
  have hins : '"' ∉ "appium:".toList ++ e.1.toList := by simpa using (hl e he).1
  have hR : ¬('"' :: ("appium:".toList ++ e.1.toList) ++ ['"']) <:+: renamed k := fun h' =>
    (hl e he).2 (String.ext (List.append_cancel_left (eq_of_infix_cons_append
      (by simpa using hk : '"' ∉ "appium:".toList ++ k.toList) (by simpa [renamed_eq] using h'))))
  have := infix_of_infix_insert (Q := renamed k) hins rfl (by simp [renamed_eq, List.getLast?_cons]) hR x (y := y)
    (by simpa [renamed_eq] using hb)
  simpa [quoted_eq] using this

theorem renamed_infix_of_renames {k : String} (hk : '"' ∉ k.toList) {l : List (String × List String)}
    (hl : ∀ e ∈ l, '"' ∉ e.1.toList ∧ e.1 ≠ k) {a b : List Char}
    (h : ReflTransGen (RenameStepIn l) a b) : renamed k <:+: b → renamed k <:+: a := by
  induction h with
  | refl => exact id
  | tail _ hst ih => exact fun hc => ih (renamed_infix_of_step hk hl hst hc)

set_option maxRecDepth 100000 in
/-- The one capability whose scopes do not hold `all`, `deviceName`, is the only entry of its
name, and its scopes read only words that no rename creates or breaks. -/
theorem capabilitiesToUpdate_scoped : ∀ e ∈ capabilitiesToUpdate, "all" ∉ e.2 →
    (∀ sc ∈ e.2, scopeBlind sc = true) ∧ capabilitiesToUpdate.countP (·.1 == e.1) = 1 := by
  decide

theorem capabilityStep_of_scoped (filepath : String) (st : Rewrite) {e : String × List String}
    (hall : "all" ∉ e.2) :
    capabilityStep filepath st e =
      if quoted e.1 <:+: st.contents then e.2.foldl (scopeStep filepath e.1) st else st := by
  unfold capabilityStep
  split_ifs <;> rfl

/-- The entries before and after a scoped one in the table name other capabilities. -/
theorem ne_of_scoped {e : String × List String} (he : e ∈ capabilitiesToUpdate) (hall : "all" ∉ e.2)
    {pre post : List (String × List String)} (hsplit : capabilitiesToUpdate = pre ++ e :: post) :
    ∀ e' ∈ pre ++ post, '"' ∉ e'.1.toList ∧ e'.1 ≠ e.1 := by
  have h := (capabilitiesToUpdate_scoped e he hall).2
  rw [hsplit, List.countP_append, List.countP_cons_of_pos _ _ (by simp)] at h
  intro e' he'
  refine ⟨quote_not_mem (hsplit ▸ List.mem_append.mpr ((List.mem_append.mp he').imp id
    (List.mem_cons_of_mem e))), fun heq => ?_⟩
  have hpos : 0 < (pre ++ post).countP (·.1 == e.1) := List.countP_pos_iff.mpr ⟨e', he', by simp [heq]⟩
  rw [List.countP_append] at hpos
  omega

section Written

variable (filepath : String) (t : List Char) {e : String × List String}
  (he : e ∈ capabilitiesToUpdate)
include he

/-- The written text holds `"appium:k"` for a capability `k` with scopes other than `all` only
where the text the first loop leaves held it, or a scope of `k` passes its test on that text. -/
theorem renamed_infix_of_scoped (hall : "all" ∉ e.2)
    (h : renamed e.1 <:+: (updateAppiumCapabilities filepath t).contents) :
    renamed e.1 <:+: (removeUnusedOptions filepath ⟨t, []⟩).contents ∨
      ∃ sc ∈ e.2, scopeHolds (removeUnusedOptions filepath ⟨t, []⟩).contents sc = true := by
  obtain ⟨pre, post, hsplit⟩ := List.mem_iff_append.mp he
  have hne := ne_of_scoped he hall hsplit
  have hpre := capabilities_renames_in filepath pre (removeUnusedOptions filepath ⟨t, []⟩)
  have hk := quote_not_mem he
  rw [updateAppiumCapabilities, hsplit, List.foldl_append, List.foldl_cons] at h
  set st := pre.foldl (capabilityStep filepath) (removeUnusedOptions filepath ⟨t, []⟩)
  have h1 := renamed_infix_of_renames hk (fun e' h' => hne e' (List.mem_append_right _ h'))
    (capabilities_renames_in filepath post _) h
  have hback := renamed_infix_of_renames hk (fun e' h' => hne e' (List.mem_append_left _ h')) hpre
  rw [capabilityStep_of_scoped _ _ hall] at h1
  split_ifs at h1
  · by_cases hx : ∃ sc ∈ e.2, scopeHolds st.contents sc = true
    · obtain ⟨sc, hsc, hh⟩ := hx
      exact .inr ⟨sc, hsc, (scopeHolds_renames ((capabilitiesToUpdate_scoped e he hall).1 sc hsc)
        hpre).symm.trans hh⟩
    · rw [foldl_scopeStep_of_not filepath e.2 st fun sc hsc => by simpa using fun h => hx ⟨sc, hsc, h⟩] at h1
      exact .inl (hback h1)
  · exact .inl (hback h1)

/-- The written text holds a quoted capability `k` whose scopes hold `all`, or one of whose
scopes passes its test on the text the first loop leaves, only where that text held two
quoted copies of `k` sharing a quote. -/
theorem doubled_infix_of_quoted
    (hpass : "all" ∈ e.2 ∨ ∃ sc ∈ e.2, scopeHolds (removeUnusedOptions filepath ⟨t, []⟩).contents sc = true)
    (h : quoted e.1 <:+: (updateAppiumCapabilities filepath t).contents) :
    doubled e.1 <:+: (removeUnusedOptions filepath ⟨t, []⟩).contents := by
  obtain ⟨pre, post, hsplit⟩ := List.mem_iff_append.mp he
  have hpre : ∀ e' ∈ pre, e' ∈ capabilitiesToUpdate := fun _ h => hsplit ▸ List.mem_append_left _ h
  have hpost : ∀ e' ∈ post, e' ∈ capabilitiesToUpdate :=
    fun _ h => hsplit ▸ List.mem_append_right _ (List.mem_cons_of_mem _ h)
  rw [updateAppiumCapabilities, hsplit, List.foldl_append, List.foldl_cons] at h
  set st := pre.foldl (capabilityStep filepath) (removeUnusedOptions filepath ⟨t, []⟩)
  have hstep := (quoted_stable he).infix_of_renames (capabilities_renames filepath hpost _) h
  refine (doubled_stable he).infix_of_renames (capabilities_renames filepath hpre _) ?_
  unfold capabilityStep at hstep
  split_ifs at hstep with h1 h2
  · exact doubled_infix_of_infix_strReplace (quote_not_mem he) _ hstep
  · obtain ⟨sc, hsc, hh⟩ := hpass.resolve_left h2
    refine doubled_infix_of_foldl_scopeStep filepath (quote_not_mem he) e.2 st
      ⟨sc, hsc, ?_⟩ hstep
    rw [scopeHolds_renames ((capabilitiesToUpdate_scoped e he h2).1 sc hsc)
      (capabilities_renames_in filepath pre _)]
    exact hh
  · exact absurd hstep h1

end Written

/-! ## What `update_appium_capabilities` writes -/

/-- The capability loop leaves a text alone when none of the names it walks is a piece of
the text's split on quotes. -/
theorem foldl_capabilityStep_of_not_mem (filepath : String) (st : Rewrite) :
    ∀ {l : List (String × List String)}, (∀ e ∈ l, e ∈ capabilitiesToUpdate) →
      (∀ e ∈ l, e.1.toList ∉ st.contents.splitOn '"') → l.foldl (capabilityStep filepath) st = st
  | [], _, _ => rfl
  | e :: _, hl, h => by
    have hq : ¬quoted e.1 <:+: st.contents := fun hq =>
      h e (.head _) (mem_splitOn_of_between (quote_not_mem (hl e (.head _))) hq)
    rw [List.foldl_cons, capabilityStep, if_pos hq]
    exact foldl_capabilityStep_of_not_mem filepath st (fun e' he' => hl e' (.tail _ he'))
      fun e' he' => h e' (.tail _ he')

/-- What `update_appium_capabilities` writes, against the text `u` the first loop leaves: the
text is edited only by deleting obsolete pairs and then renaming quoted names of the table; on
a text with at most one spacing of each obsolete pair and no pair nested, no pair is left; a
name scoped `all`, or one of whose scopes passes its test on `u`, keeps a quoted copy only
where `u` held two copies sharing a quote; a name with other scopes gains its prefix only where
`u` held it or a scope passes its test on `u`; and no rename doubles the prefix. -/
theorem updateAppiumCapabilities_edits (filepath : String) (t : List Char) :
    ReflTransGen DeleteStep t (removeUnusedOptions filepath ⟨t, []⟩).contents ∧
    ReflTransGen RenameStep (removeUnusedOptions filepath ⟨t, []⟩).contents
      (updateAppiumCapabilities filepath t).contents ∧
    (OneSpacing t → ¬Nested t →
      ∀ Q ∈ obsoletePairs, ¬Q <:+: (updateAppiumCapabilities filepath t).contents) ∧
    (∀ e ∈ capabilitiesToUpdate,
      ("all" ∈ e.2 ∨ ∃ sc ∈ e.2, scopeHolds (removeUnusedOptions filepath ⟨t, []⟩).contents sc) →
      quoted e.1 <:+: (updateAppiumCapabilities filepath t).contents →
        doubled e.1 <:+: (removeUnusedOptions filepath ⟨t, []⟩).contents) ∧
    (∀ e ∈ capabilitiesToUpdate, "all" ∉ e.2 →
      renamed e.1 <:+: (updateAppiumCapabilities filepath t).contents →
        renamed e.1 <:+: (removeUnusedOptions filepath ⟨t, []⟩).contents ∨
          ∃ sc ∈ e.2, scopeHolds (removeUnusedOptions filepath ⟨t, []⟩).contents sc) ∧
    ∀ e ∈ capabilitiesToUpdate,
      renamed ("appium:" ++ e.1) <:+: (updateAppiumCapabilities filepath t).contents →
        renamed ("appium:" ++ e.1) <:+: (removeUnusedOptions filepath ⟨t, []⟩).contents := by
  have hrun := capabilities_renames filepath (fun _ he => he) (removeUnusedOptions filepath ⟨t, []⟩)
  exact ⟨removeUnusedOptions_deletes filepath ⟨t, []⟩, hrun,
    fun h1 hn Q hQ h => removeUnusedOptions_clears filepath h1 hn Q hQ (infix_of_renames_pair hQ hrun h),
    fun _ he hpass => doubled_infix_of_quoted filepath t he hpass,
    fun _ he hall => renamed_infix_of_scoped filepath t he hall,
    fun _ he => (renamed_appium_stable he).infix_of_renames hrun⟩

set_option maxRecDepth 100000 in
/-- With both spacings of `isStrict` present, the `elif` deletes only the first and the second
is written back; and of two quoted copies of `app` that share a quote only the first is
renamed. -/
theorem updateAppiumCapabilities_both_spacings :
    updateAppiumCapabilities "caps.json" "\"isStrict\": \"true\", \"isStrict\" : \"true\",".toList =
      ⟨" \"isStrict\" : \"true\",".toList,
        ["Removing unused option: isStrict with value: true from caps.json"]⟩ ∧
    updateAppiumCapabilities "caps.json" "\"app\"app\": 1".toList =
      ⟨"\"appium:app\"app\": 1".toList, ["Updating capability: app in caps.json"]⟩ := by
  have htable := List.take_append_drop 8 capabilitiesToUpdate
  rw [List.drop_eq_getElem_cons (by decide)] at htable
  constructor
  · exact foldl_capabilityStep_of_not_mem _ _ (fun _ h => h) (by decide)
  · rw [updateAppiumCapabilities, ← htable, List.foldl_append, List.foldl_cons,
      foldl_capabilityStep_of_not_mem _ _ (fun _ h => List.mem_of_mem_take h) (by decide)]
    exact foldl_capabilityStep_of_not_mem _ _ (fun _ h => List.mem_of_mem_drop h) (by decide)

end SdkMigration.Appium
