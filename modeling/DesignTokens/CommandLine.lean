import DesignTokens.CommandLine.Run
import DesignTokens.Template.Standard
import DesignTokens.Yaml.Reader

/-! The command line with what it runs on: the reader of YAML and the plain platform that are at
hand. -/
