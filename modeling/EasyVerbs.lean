import EasyVerbs.Runs
import EasyVerbs.Parties
import EasyVerbs.Backend
import EasyVerbs.LearningView
import EasyVerbs.GameClock
import EasyVerbs.GameQuestions
import EasyVerbs.GameLabels
import EasyVerbs.QuestionLabels
import EasyVerbs.BestScore
import EasyVerbs.SharedBestScore
import EasyVerbs.UnsettledScores
import EasyVerbs.AbandonedGames
import EasyVerbs.SearchTable
import EasyVerbs.VerbScreens
import EasyVerbs.RowsInRange
import EasyVerbs.SearchResults
import EasyVerbs.LastSearch
import EasyVerbs.DetailsView
import EasyVerbs.Updates
import EasyVerbs.SharedFavorites
import EasyVerbs.DetailsRuns
import EasyVerbs.VocabularySearch
import EasyVerbs.FavoriteRoundTrip
import EasyVerbs.FavoritesSession
import EasyVerbs.FavoriteTaps
import EasyVerbs.UnsettledTaps
import EasyVerbs.FavoriteViews
import EasyVerbs.Patterns
import EasyVerbs.SignUp
import EasyVerbs.EmailGrammar
import EasyVerbs.WholeSignUps
import EasyVerbs.SignIn
import EasyVerbs.App
import EasyVerbs.Passwords
import EasyVerbs.UserRecords
import EasyVerbs.OwnDocuments
import EasyVerbs.AccountDocuments
import EasyVerbs.OneUser
import EasyVerbs.DocumentHistory
import EasyVerbs.Navigation
import EasyVerbs.OrderOfScreens
import EasyVerbs.AliveScreens
import EasyVerbs.FavoriteWords
import EasyVerbs.Codes
import EasyVerbs.LevelDbKey
import EasyVerbs.LevelDbMutationQueue
import EasyVerbs.LocalWrites
import EasyVerbs.OrderedCode
import EasyVerbs.SignedNumbers
import EasyVerbs.SortedRows
import EasyVerbs.LevelDbTransaction
import EasyVerbs.MutationQueueRows
import EasyVerbs.BatchResults
import EasyVerbs.PinnedDocuments
import EasyVerbs.WriteStream
import EasyVerbs.WritePipeline
