import FuzzerTestSuite.Png.EntryPoints
import FuzzerTestSuite.Png.Rereading
import FuzzerTestSuite.Png.Limits
import FuzzerTestSuite.Png.Profile
import FuzzerTestSuite.Png.Coverage
import FuzzerTestSuite.Png.Generations
import FuzzerTestSuite.Png.Campaign
import FuzzerTestSuite.Png.Target
import FuzzerTestSuite.Modexp.Split
import FuzzerTestSuite.Modexp.Search
import FuzzerTestSuite.Sqlite.RecordCompare
import FuzzerTestSuite.Sqlite.BitvecRuns
import FuzzerTestSuite.Sqlite.RowSetVisits
import FuzzerTestSuite.Sqlite.RowSetCost
import FuzzerTestSuite.Sqlite.Utf
import FuzzerTestSuite.Sqlite.LikePrefix
import FuzzerTestSuite.Sqlite.RunParser
