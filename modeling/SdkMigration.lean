import SdkMigration.Text
import SdkMigration.Regex
import SdkMigration.Window
import SdkMigration.LongestMatch
import SdkMigration.Java.Imports
import SdkMigration.Java.Rewrites
import SdkMigration.Java.Locators
import SdkMigration.Java.SdkHelper
import SdkMigration.Java.Pipeline
import SdkMigration.Java.ImportLines
import SdkMigration.Pom
import SdkMigration.Cli
import SdkMigration.Walk
import SdkMigration.Appium
import SdkMigration.AppiumCli
